/-
V12.Interp.Property — named property reads over the stub cache, from
`v12-interp/src/property.rs` (`ic_lookup`), `v12-heap/src/gc.rs`
(`stub_lookup_proto`, `stub_record_proto`) and
`v12-engine/src/internal_methods.rs` (`ordinary_get`, `ordinary_has_property`).

`walk` is the uncached lookup; `stubAnswer` is what the cache serves. `Op` are
the steps that can come between two reads, in any order.
-/
import V12.Heap.ShapeCalls
import V12.Heap.StubCache

namespace V12.Interp

open V12.Heap

/-! ## §1 The machine -/

/-- `GLOBAL_VAR_OFFSET`: the number of intrinsic slots before a global's own. -/
def globalVarOffset : Nat := 25

/-- A heap with its stub cache and proto epoch, and the interpreter's global. -/
structure Machine where
  heap : Heap
  cache : StubCache
  protoGeneration : BitVec 64
  global : Option Nat

/-- The data entry of `key` in the dictionary rung. -/
def dictEntry (o : JsObject) (key : PropKey) : Option DictEntry := (o.dictionary.getD []).lookup key

namespace Machine

/-- The start of a program whose global is `global`. -/
def new (global : Option Nat) : Machine := ⟨.new, .new, 0, global⟩

def object (m : Machine) (i : Nat) : Option JsObject := m.heap.get (.objects, i)

/-- `lookup_property` on the shape of an object. -/
def lookupProperty (m : Machine) (o : JsObject) (key : PropKey) : Option Descriptor :=
  (m.heap.shapeAt o.shape).bind fun s => s.findDescriptor key

/-- `global_slot_index`. -/
def globalSlotIndex (m : Machine) (i slot : Nat) : Nat :=
  if some i = m.global ∨ i ∈ m.heap.realmGlobals then globalVarOffset + slot else slot

def storage (m : Machine) (i : Nat) (o : JsObject) (slot : Nat) : Option JsValue :=
  o.properties[m.globalSlotIndex i slot]?

def Holed (m : Machine) (i : Nat) (o : JsObject) (slot : Nat) : Bool :=
  (m.storage i o slot).any JsValue.isHole

/-! ## §2 The uncached lookup -/

/-- Where a walk ends. -/
inductive Hit where
  | namespace (i : Nat)
  | proxy (i : Nat)
  | dict (i : Nat) (entry : DictEntry)
  | shape (i : Nat) (d : Descriptor)
  | missing
  deriving DecidableEq

/-- What a read answers: a value, the result of the namespace's or the proxy's own
`[[Get]]`, of a getter, or the fallback of an absent property; `fault` is an
index out of bounds. -/
inductive Outcome where
  | value (v : JsValue)
  | namespace (i : Nat)
  | proxy (i : Nat)
  | getter (g : Option Nat)
  | missing
  | fault
  deriving DecidableEq

/-- The dictionary entry of a level, unless it is a deleted data entry. -/
def presentEntry (m : Machine) (i : Nat) (o : JsObject) (key : PropKey) : Option DictEntry :=
  (dictEntry o key).filter fun e => e.isAccessor || !m.Holed i o e.slot

/-- A shape record is present unless its data cell is deleted. -/
def presentIn (m : Machine) (i : Nat) (o : JsObject) : Descriptor → Bool
  | .data _ slot _ => !m.Holed i o slot
  | .accessor .. => true

/-- The shape record of a level, unless it is a deleted data record. -/
def presentRecord (m : Machine) (i : Nat) (o : JsObject) (key : PropKey) : Option Descriptor :=
  (m.lookupProperty o key).filter (m.presentIn i o)

/-- The slow path of `ic_lookup`, given the number of levels it may visit. -/
def walk (m : Machine) (key : PropKey) : Nat → Option Nat → Option Hit
  | _, none => some .missing
  | 0, some _ => none
  | levels + 1, some i =>
    match m.object i with
    | none => none
    | some o =>
      if o.kind = .moduleNamespace then some (.namespace i)
      else if o.kind = .proxy then some (.proxy i)
      else
        match m.presentEntry i o key with
        | some e => some (.dict i e)
        | none =>
          match m.presentRecord i o key with
          | some d => some (.shape i d)
          | none => walk m key levels o.prototype

def readCell (m : Machine) (i slot : Nat) : Outcome :=
  match (m.object i).bind fun o => m.storage i o slot with
  | some v => .value v
  | none => .fault

def outcome (m : Machine) : Hit → Outcome
  | .namespace i => .namespace i
  | .proxy i => .proxy i
  | .dict i e => if e.isAccessor then .getter e.getter else m.readCell i e.slot
  | .shape i (.data _ slot _) => m.readCell i slot
  | .shape _ (.accessor _ getter _ _) => .getter getter
  | .missing => .missing

/-- **The uncached read** of `key` on `obj`. -/
def freshLookup (m : Machine) (key : PropKey) (levels obj : Nat) : Option Outcome :=
  (m.walk key levels (some obj)).map m.outcome

/-! ## §3 The stub cache on the heap -/

/-- The links and the intermediate shape behind an object. -/
def chainOf (m : Machine) (o : JsObject) : Chain :=
  let front := o.prototype.bind m.object
  ⟨m.protoGeneration, o.prototype, front.bind JsObject.prototype, (front.map JsObject.shape).getD noHandle⟩

/-- `stub_lookup_proto`. -/
def stubLookupProto (m : Machine) (receiver shape : Nat) (key : PropKey) : Option (Nat × Nat) :=
  match m.object receiver with
  | none => none
  | some o =>
    match m.cache.lookupProto receiver shape key (m.chainOf o) with
    | none => none
    | some hit =>
      if !hit.isOwn && (m.object hit.target).map JsObject.shape != some hit.holderShape then none
      else some (hit.target, hit.slot)

/-- `stub_record_proto`: own, one link or two links away, else nothing. -/
def stubRecordProto (m : Machine) (receiver shape : Nat) (key : PropKey)
    (owner ownerShape slot : Nat) : Machine :=
  match m.object receiver with
  | none => m
  | some o =>
    let chain := m.chainOf o
    let own : Chain := ⟨m.protoGeneration, none, none, noHandle⟩
    if owner = receiver then
      { m with cache := m.cache.recordProto shape key owner ownerShape slot own }
    else if chain.link0 = some owner ∨ chain.link1 = some owner then
      { m with cache := m.cache.recordProto shape key owner ownerShape slot chain }
    else m

def shapeOf (m : Machine) (i : Nat) : Nat := ((m.object i).map JsObject.shape).getD noHandle

/-- What `ic_lookup` serves from the stub cache for a receiver that is no proxy. -/
def stubAnswer (m : Machine) (obj : Nat) (key : PropKey) : Option Outcome :=
  match m.stubLookupProto obj (m.shapeOf obj) key with
  | none => none
  | some (holder, slot) =>
    match m.object holder with
    | none => none
    | some o =>
      if o.kind = .moduleNamespace then some (.namespace holder)
      else ((m.storage holder o slot).filter fun v => !v.isHole).map .value

def recordAll (m : Machine) (obj : Nat) (key : PropKey) (found : List (Nat × Nat)) : Machine :=
  found.foldl
    (fun m at_ => m.stubRecordProto obj (m.shapeOf obj) key at_.1 (m.shapeOf at_.1) at_.2) m

/-! ## §4 The reads -/

/-- The locations `ic_lookup` records for a hit: data hits only. -/
def Hit.locations : Hit → List (Nat × Nat)
  | .dict i e => if e.isAccessor then [] else [(i, e.slot)]
  | .shape i (.data _ slot _) => [(i, slot)]
  | .namespace _ | .proxy _ | .shape _ (.accessor ..) | .missing => []

/-- The inline cache of the site answers: its slot's cell is there and not deleted. -/
def icAnswer (m : Machine) (obj : Nat) (cachedSlot : Option Nat) : Option JsValue :=
  cachedSlot.bind fun slot =>
    ((m.object obj).bind fun o => m.storage obj o slot).filter fun v => !v.isHole

/-- `ic_lookup` on an object that is neither a proxy nor a namespace, which
`get_property` answers first; `cachedSlot` is the slot the inline cache of the
site has for the shape and key. -/
def icLookup (m : Machine) (obj : Nat) (key : PropKey) (cachedSlot : Option Nat) (levels : Nat) :
    Option Outcome × List (Nat × Nat) :=
  match m.stubAnswer obj key with
  | some answer => (some answer, [])
  | none =>
    match m.icAnswer obj cachedSlot with
    | some v => (some (.value v), [])
    | none =>
      match m.walk key levels (some obj) with
      | none => (none, [])
      | some hit => (some (m.outcome hit), hit.locations)

/-- The stub arm of the engine's reads: the plain slot, present. -/
def engineStub (m : Machine) (obj : Nat) (key : PropKey) : Bool :=
  match m.stubLookupProto obj (m.shapeOf obj) key with
  | none => false
  | some (holder, slot) =>
    ((m.object holder).bind fun o => o.properties[slot]?).any fun v => !v.isHole

/-- The locations `ordinary_get` records: every data entry and data record it
meets, going on behind a deleted one. -/
def getLocations (m : Machine) (key : PropKey) : Nat → Option Nat → List (Nat × Nat)
  | _, none | 0, some _ => []
  | levels + 1, some i =>
    match m.object i with
    | none => []
    | some o =>
      let present (slot : Nat) : Bool := o.properties[slot]?.any fun v => !v.isHole
      let shapeArm : List (Nat × Nat) :=
        match m.lookupProperty o key with
        | some (.data _ slot _) =>
          (i, slot) :: if present slot then [] else getLocations m key levels o.prototype
        | some (.accessor ..) => []
        | none => getLocations m key levels o.prototype
      match dictEntry o key with
      | some e =>
        if e.isAccessor then [] else (i, e.slot) :: if present e.slot then [] else shapeArm
      | none => shapeArm

/-- The location `ordinary_has_property` records: the first present one. -/
def hasLocations (m : Machine) (key : PropKey) : Nat → Option Nat → List (Nat × Nat)
  | _, none | 0, some _ => []
  | levels + 1, some i =>
    match m.object i with
    | none => []
    | some o =>
      let present (slot : Nat) : Bool := o.properties[slot]?.any fun v => !v.isHole
      match dictEntry o key with
      | some e =>
        if e.isAccessor then []
        else if present e.slot then [(i, e.slot)]
        else hasLocations m key levels o.prototype
      | none =>
        match m.lookupProperty o key with
        | some (.data _ slot _) =>
          if present slot then [(i, slot)] else hasLocations m key levels o.prototype
        | some (.accessor ..) => []
        | none => hasLocations m key levels o.prototype

/-! ## §5 The dictionary rung -/

/-- `convert_to_dictionary`, the shape of the object having `base` properties. -/
def convertToDictionary (o : JsObject) (base : Nat) : JsObject :=
  match o.dictionary with
  | some _ => o
  | none => { o with dictionary := some [], dictSeq := base }

/-- Files an entry: a fresh slot at the end of the storage, the next sequence. -/
def fileEntry (o : JsObject) (key : PropKey) (stored : JsValue) (attrs : Attrs)
    (getter setter : Option Nat) (isAccessor : Bool) : JsObject :=
  let entry : DictEntry := ⟨o.properties.length, attrs, getter, setter, isAccessor, o.dictSeq⟩
  { o with
    properties := o.properties ++ [stored]
    dictionary := o.dictionary.map fun entries =>
      (key, entry) :: entries.filter (fun e => e.1 ≠ key)
    dictSeq := o.dictSeq + 1 }

/-- `dict_insert`. -/
def dictInsert (o : JsObject) (key : PropKey) (value : JsValue) (attrs : Attrs) : JsObject :=
  fileEntry o key value attrs none none false

/-- `convert_key_to_accessor`. -/
def convertKeyToAccessor (o : JsObject) (base : Nat) (key : PropKey) (attrs : Attrs)
    (getter setter : Option Nat) : JsObject :=
  fileEntry (convertToDictionary o base) key .hole attrs getter setter true

/-- `convert_key_to_data`. -/
def convertKeyToData (o : JsObject) (base : Nat) (key : PropKey) (attrs : Attrs)
    (value : Option JsValue) : JsObject :=
  fileEntry (convertToDictionary o base) key (value.getD .undefined) attrs none none false

/-! ## §6 The steps -/

/-- One step of a program, as far as property reads can tell. -/
inductive Op where
  | heap (op : GcOp)
  | addProperty (parent : Nat) (key : PropKey) (attrs : Attrs)
  | updateDataAttrs (parent : Nat) (key : PropKey) (attrs : Attrs)
  | defineAccessor (parent : Nat) (key : PropKey) (getter setter : Option Nat) (attrs : Attrs)
  | bumpProtoGeneration
  | access (obj : Nat) (key : PropKey) (cachedSlot : Option Nat) (levels : Nat)
  | ordinaryGet (obj : Nat) (key : PropKey) (levels : Nat)
  | ordinaryHasProperty (obj : Nat) (key : PropKey) (levels : Nat)

/-- The receiver, the key and the locations a read records. -/
def recorded (m : Machine) : Op → Option (Nat × PropKey × List (Nat × Nat))
  | .access obj key cachedSlot levels => some (obj, key, (m.icLookup obj key cachedSlot levels).2)
  | .ordinaryGet obj key levels =>
    some (obj, key, if m.engineStub obj key then [] else m.getLocations key levels (some obj))
  | .ordinaryHasProperty obj key levels =>
    some (obj, key, if m.engineStub obj key then [] else m.hasLocations key levels (some obj))
  | .heap _ | .addProperty .. | .updateDataAttrs .. | .defineAccessor .. | .bumpProtoGeneration =>
    none

/-- The cache over a heap call: `force_collect` clears it. -/
def cacheAfter (m : Machine) : GcOp → StubCache
  | .forceCollect => m.cache.clear
  | _ => m.cache

def withShapes (m : Machine) (result : Option (Heap × Nat)) : Machine :=
  match result with
  | some r => { m with heap := r.1 }
  | none => m

def step (m : Machine) (op : Op) : Machine :=
  match op with
  | .heap call => { m with heap := m.heap.step call, cache := m.cacheAfter call }
  | .addProperty parent key attrs => m.withShapes (m.heap.addProperty parent key attrs)
  | .updateDataAttrs parent key attrs => m.withShapes (m.heap.updateDataAttrs parent key attrs)
  | .defineAccessor parent key getter setter attrs =>
    m.withShapes (m.heap.defineAccessor parent key getter setter attrs)
  | .bumpProtoGeneration => { m with protoGeneration := m.protoGeneration + 1 }
  | .access .. | .ordinaryGet .. | .ordinaryHasProperty .. =>
    match m.recorded op with
    | some (obj, key, found) => m.recordAll obj key found
    | none => m

/-- A write that changes no shape in place and no object's kind; an object gets
its shape through `bind_shape`, its default or the promise root. -/
def KeepsLayout (h : Heap) : GcOp → Prop
  | .write .shapes _ _ => False
  | .write .objects i o => o.shape ∈ h.shapeRoots ∧
      ∃ old : JsObject, h.get (.objects, i) = some old ∧ o.kind = old.kind
  | .alloc .objects o => o.shape ∈ h.shapeRoots
  | _ => True

def Plain (k : Kind) : Prop := k ≠ .proxy ∧ k ≠ .moduleNamespace

instance (k : Kind) : Decidable (Plain k) := inferInstanceAs (Decidable (_ ∧ _))

/-- **The contract**: handles of live slots, shapes changed by their own
operations only, reads on live receivers that `get_property` and the method
tables do not send elsewhere. -/
def Kept (m : Machine) : Op → Prop
  | .heap call => m.heap.Kept call ∧ KeepsLayout m.heap call
  | .addProperty parent key _ | .updateDataAttrs parent key _ =>
    m.heap.isAlive (.shapes, parent) = true ∧ RecordLive m.heap key none none
  | .defineAccessor parent key getter setter _ =>
    m.heap.isAlive (.shapes, parent) = true ∧ RecordLive m.heap key getter setter
  | .bumpProtoGeneration => True
  | .access obj _ _ _ =>
    m.heap.isAlive (.objects, obj) = true ∧ ∃ o, m.object obj = some o ∧ Plain o.kind
  | .ordinaryGet obj _ _ | .ordinaryHasProperty obj _ _ => m.heap.isAlive (.objects, obj) = true

end Machine

end V12.Interp
