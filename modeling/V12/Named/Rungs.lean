/-
V12.Named.Rungs — what the reads of both models ask besides an object's own
properties.

`get_property` asks its surfaces first. `ic_lookup` asks the stub cache and then
the inline cache of its site, `ordinary_get` and `ordinary_has_property` the stub
cache alone, and `op_in` neither. Both caches go by the shape, which deletes,
dictionary entries and prototypes' values leave as it is.
-/
import V12.Named.Changes

namespace V12.Named

open V12.Heap V12.Interp

/-- What `stub_lookup_proto` answers for a receiver: a slot of its own, or the live values of a
holder's cell at the interpreter's index and at the plain one. -/
inductive Stub where
  | own (slot : Nat)
  | holder (biased plain : Option JsValue)

/-- The rungs around an object's own properties, each under the key that is read. The caches are
those of the object's shape; `chain` is what the prototypes answer. -/
structure Rungs where
  surface : PropKey → Option OwnRead
  stub : PropKey → Option Stub
  site : PropKey → Option Nat
  chain : PropKey → Option OwnRead

/-- No rung answers. -/
def Rungs.silent : Rungs := ⟨fun _ => none, fun _ => none, fun _ => none, fun _ => none⟩

namespace Rungs

variable (rungs : Rungs) (s : Store) (key : PropKey)

/-! ## §1 Reads -/

/-- The stub rung of `ic_lookup`. -/
def biasedStub : Option JsValue :=
  match rungs.stub key with
  | some (.own slot) => s.liveCell (s.slotIndex slot)
  | some (.holder biased _) => biased
  | none => none

/-- The stub rung of `ordinary_get` and `ordinary_has_property`. -/
def plainStub : Option JsValue :=
  match rungs.stub key with
  | some (.own slot) => s.liveCell slot
  | some (.holder _ plain) => plain
  | none => none

def siteCell : Option JsValue := (rungs.site key).bind fun slot => s.liveCell (s.slotIndex slot)

def icLookup : Option OwnRead :=
  ((rungs.biasedStub s key).or (rungs.siteCell s key)).map OwnRead.value |>.or
    ((s.icOwn key).or (rungs.chain key))

def getProperty : Option OwnRead := (rungs.surface key).or (rungs.icLookup s key)

def opIn : Bool := s.opIn key || (rungs.chain key).isSome

def ordinaryGet : Option OwnRead :=
  ((rungs.plainStub s key).map OwnRead.value).or ((s.ordinaryGet key).or (rungs.chain key))

def ordinaryHasProperty : Bool :=
  (rungs.plainStub s key).isSome || (s.ordinaryHasProperty key || (rungs.chain key).isSome)

end Rungs

/-! ## §2 Rungs that fit an object -/

namespace Store

/-- The object keeps the key as data in the cell. -/
def KeptAt (s : Store) (key : PropKey) (slot : Nat) : Prop :=
  match s.entry key with
  | some e => e.isAccessor = false ∧ e.slot = slot
  | none => s.layout key = some (some slot)

/-- The object has no property under the key: what describes it is data in a deleted cell. -/
structure Lacks (s : Store) (key : PropKey) : Prop where
  entry : ∀ e, s.entry key = some e → e.isAccessor = false ∧ s.liveCell e.slot = none
  shape : s.layout key ≠ some none
  cell : ∀ slot, s.layout key = some (some slot) → s.liveCell slot = none

end Store

/-- **The rungs fit the object**: a cache names the cell where the object keeps the key, and a
surface or a stub of a prototype, which then answers as the chain, a key the object does not
have. -/
structure Rungs.Fit (rungs : Rungs) (s : Store) : Prop where
  surface : ∀ key r, rungs.surface key = some r → s.Lacks key
  own : ∀ key slot v, rungs.stub key = some (.own slot) → s.liveCell slot = some v →
    s.KeptAt key slot
  site : ∀ key slot v, rungs.site key = some slot → s.liveCell slot = some v → s.KeptAt key slot
  biased : ∀ key v plain, rungs.stub key = some (.holder (some v) plain) →
    s.Lacks key ∧ rungs.chain key = some (.value v)
  plain : ∀ key biased v, rungs.stub key = some (.holder biased (some v)) →
    s.Lacks key ∧ rungs.chain key = some (.value v)

/-- The surfaces answer what the prototypes have. -/
def Rungs.Installed (rungs : Rungs) : Prop :=
  ∀ key r, rungs.surface key = some r → rungs.chain key = some r

end V12.Named
