/-
V12.Heap.Gc — the heap and its collector, from `v12-heap/src/gc.rs`.

A heap is five spaces and the root tables. `forceCollect` marks from the
roots, prunes the weak transition edges of live shapes and publishes the
mark; sweeping is left to later steps.
-/
import V12.Heap.Object
import V12.Heap.Space
import V12.Lib.Run

namespace V12

open Heap in
/-- `Heap`: the spaces and every table `force_collect` marks from. -/
structure Heap where
  spaces : (space : Space) → SpaceState (Cell space)
  roots : List JsValue
  shapeRoots : List Nat
  realmGlobals : List Nat
  moduleRoots : List Nat
  pinnedRoots : List Nat
  /-- Canonical strings by content hash. -/
  internedStrings : List (Nat × List Nat)
  symbolRegistry : List (String × Nat)
  wellKnown : List (Option Nat)

namespace Heap

/-- `PROMISE_INTERNAL_SLOTS`. -/
def promiseInternalSlots : Nat := 3

/-- `Heap::new`: the empty-object root and the promise root are born live. -/
def new : Heap where
  spaces
    | .shapes => .bornLive [Shape.reserved 0, Shape.reserved promiseInternalSlots]
    | .objects | .strings | .symbols | .bigints => .empty
  roots := []
  shapeRoots := [0, 1]
  realmGlobals := []
  moduleRoots := []
  pinnedRoots := []
  internedStrings := []
  symbolRegistry := []
  wellKnown := []

def isAlive (h : Heap) (r : Ref) : Bool := (h.spaces r.1).isAlive r.2

def get (h : Heap) (r : Ref) : Option (Cell r.1) := (h.spaces r.1).slots[r.2]?

def setSpace (h : Heap) (space : Space) (s : SpaceState (Cell space)) : Heap :=
  { h with spaces := Function.update h.spaces space s }

/-! ## §1 Marking -/

def rootRefs (h : Heap) : List Ref :=
  trace h.roots ++
  h.shapeRoots.map (fun i => (.shapes, i)) ++
  h.realmGlobals.map (fun i => (.objects, i)) ++
  h.moduleRoots.map (fun i => (.objects, i)) ++
  h.pinnedRoots.map (fun i => (.objects, i)) ++
  h.internedStrings.flatMap (fun bucket => bucket.2.map fun i => (.strings, i)) ++
  h.symbolRegistry.map (fun e => (.symbols, e.2)) ++
  h.wellKnown.flatMap (traceHandle .symbols)

/-- `mark` ignores handles past the end of their space. -/
def inRange (h : Heap) (r : Ref) : Bool := decide (r.2 < (h.spaces r.1).slots.length)

/-- `trace_referents`. -/
def referents (h : Heap) (r : Ref) : List Ref :=
  match h.get r with
  | some cell => trace cell
  | none => []

/-- Reachable from the roots through what the cells report. -/
def Reachable (h : Heap) (r : Ref) : Prop := Lib.Reach h.inRange h.referents h.rootRefs r

def allRefs (h : Heap) : List Ref :=
  Space.all.flatMap fun space => (List.range (h.spaces space).slots.length).map fun i => (space, i)

/-- The marking loop of `force_collect`. -/
def mark (h : Heap) : Ref → Bool :=
  ((Lib.Marker.markAll h.inRange .new h.rootRefs).drain h.inRange h.referents
    h.allRefs.length).marked

/-! ## §2 Collecting -/

/-- The edges of a live shape to dead children go. -/
def pruneEdges (marked : Nat → Bool) (s : Shape) : Shape :=
  { s with transitions := s.transitions.retain fun e => marked e.2 }

/-- `prune_shape_transitions`. -/
def pruneShapeTransitions (marked : Nat → Bool) (s : SpaceState Shape) : SpaceState Shape :=
  { s with
    slots := s.slots.mapIdx fun i shape => if marked i then pruneEdges marked shape else shape
    alive_aligned := by simpa using s.alive_aligned
    released_aligned := by simpa using s.released_aligned }

/-- The prune of one space: only shapes have weak edges. -/
def pruneSpace (marked : Nat → Bool) : (space : Space) → SpaceState (Cell space) →
    SpaceState (Cell space)
  | .shapes, s => pruneShapeTransitions marked s
  | .objects, s | .strings, s | .symbols, s | .bigints, s => s

/-- `finish_sweep`. -/
def finishSweep (h : Heap) : Heap := { h with spaces := fun space => (h.spaces space).finishSweep }

/-- The prune and the publication of a mark, in one space. -/
def publishSpace (h : Heap) (marked : Ref → Bool) (space : Space) : SpaceState (Cell space) :=
  (pruneSpace (fun i => marked (.shapes, i)) space (h.spaces space)).publishMark
    (fun i => marked (space, i))

def publish (h : Heap) (marked : Ref → Bool) : Heap := { h with spaces := h.publishSpace marked }

/-- `force_collect`. -/
def forceCollect (h : Heap) : Heap := h.finishSweep.publish h.finishSweep.mark

/-! ## §3 The calls of a mutator -/

/-- `alloc`. -/
def alloc (h : Heap) (space : Space) (value : Cell space) : Heap × Nat :=
  let r := (h.spaces space).alloc value
  (h.setSpace space r.1, r.2)

/-- Assignment through `get_mut`. -/
def write (h : Heap) (space : Space) (i : Nat) (value : Cell space) : Heap :=
  h.setSpace space
    { h.spaces space with
      slots := (h.spaces space).slots.set i value
      alive_aligned := by simpa using (h.spaces space).alive_aligned
      released_aligned := by simpa using (h.spaces space).released_aligned }

/-- `sweep_step`. -/
def sweepStep (h : Heap) (space : Space) : Heap := h.setSpace space (h.spaces space).sweepStep.1

def addRoot (h : Heap) (value : JsValue) : Heap := { h with roots := h.roots ++ [value] }

/-- `remove_root`: all occurrences. -/
def removeRoot (h : Heap) (value : JsValue) : Heap :=
  { h with roots := h.roots.filter fun v => v ≠ value }

def addShapeRoot (h : Heap) (shape : Nat) : Heap := { h with shapeRoots := h.shapeRoots ++ [shape] }

/-- `bind_shape`. -/
def bindShape (h : Heap) (obj shape : Nat) : Heap :=
  match h.get (.objects, obj) with
  | some (o : JsObject) => (h.write .objects obj { o with shape := shape }).addShapeRoot shape
  | none => h

/-- The registry half of `register_realm_global`; the header bit it stamps on the
object is not read here. -/
def registerRealmGlobal (h : Heap) (global : Nat) : Heap :=
  if global ∈ h.realmGlobals then h else { h with realmGlobals := h.realmGlobals ++ [global] }

def deregisterRealmGlobal (h : Heap) (global : Nat) : Heap :=
  { h with realmGlobals := h.realmGlobals.erase global }

def addModuleRoot (h : Heap) (object : Nat) : Heap :=
  if object ∈ h.moduleRoots then h else { h with moduleRoots := h.moduleRoots ++ [object] }

def addPinnedRoot (h : Heap) (object : Nat) : Heap :=
  if object ∈ h.pinnedRoots then h else { h with pinnedRoots := h.pinnedRoots ++ [object] }

def StrStorage.flatUnits : StrStorage → Option (List (BitVec 16))
  | .latin1 bytes => some (bytes.map fun b => b.zeroExtend 16)
  | .utf16 units => some units
  | .cons .. | .sliced .. => none

/-- A materialized text. -/
structure FlatText where
  storage : StrStorage
  flat : storage.flatUnits.isSome = true

/-- The canonical instance of a text in its bucket. -/
def findInterned (h : Heap) (hash : Nat) (text : FlatText) : Option Nat :=
  ((h.internedStrings.lookup hash).getD []).find? fun i =>
    match h.get (.strings, i) with
    | some (s : V12Str) => s.storage.flatUnits == text.storage.flatUnits
    | none => false

/-- `intern_string`, from the materialized text and its content hash on. -/
def internString (h : Heap) (hash : BitVec 32) (text : FlatText) : Heap × Nat :=
  match h.findInterned hash.toNat text with
  | some existing => (h, existing)
  | none =>
    let r := h.alloc .strings ⟨text.storage, some hash⟩
    let bucket := (h.internedStrings.lookup hash.toNat).getD []
    ({ r.1 with internedStrings :=
        (hash.toNat, bucket ++ [r.2]) :: h.internedStrings.filter (fun e => e.1 ≠ hash.toNat) }, r.2)

/-- `symbol_for_key`. -/
def symbolForKey (h : Heap) (key : String) : Heap × Nat :=
  match h.symbolRegistry.lookup key with
  | some existing => (h, existing)
  | none =>
    let r := h.alloc .symbols V12Symbol.mk
    ({ r.1.addRoot (.symbol r.2) with symbolRegistry := (key, r.2) :: h.symbolRegistry }, r.2)

/-- `well_known_symbol`. -/
def wellKnownSymbol (h : Heap) (which : Nat) : Heap × Nat :=
  let table := h.wellKnown ++ List.replicate (which + 1 - h.wellKnown.length) none
  match (table[which]?).join with
  | some existing => ({ h with wellKnown := table }, existing)
  | none =>
    let r := h.alloc .symbols V12Symbol.mk
    ({ r.1 with wellKnown := table.set which (some r.2) }, r.2)

/-- One call. -/
inductive GcOp where
  | alloc (space : Space) (value : Cell space)
  | write (space : Space) (i : Nat) (value : Cell space)
  | setRoots (values : List JsValue)
  | addRoot (value : JsValue)
  | removeRoot (value : JsValue)
  | addShapeRoot (shape : Nat)
  | bindShape (obj shape : Nat)
  | registerRealmGlobal (global : Nat)
  | deregisterRealmGlobal (global : Nat)
  | addModuleRoot (object : Nat)
  | addPinnedRoot (object : Nat)
  | internString (hash : BitVec 32) (text : FlatText)
  | symbolForKey (key : String)
  | wellKnownSymbol (which : Nat)
  | sweepStep (space : Space)
  | forceCollect

/-- One call; `setRoots` is any use of `roots_mut`. -/
def step (h : Heap) : GcOp → Heap
  | .alloc space value => (h.alloc space value).1
  | .write space i value => h.write space i value
  | .setRoots values => { h with roots := values }
  | .addRoot value => h.addRoot value
  | .removeRoot value => h.removeRoot value
  | .addShapeRoot shape => h.addShapeRoot shape
  | .bindShape obj shape => h.bindShape obj shape
  | .registerRealmGlobal global => h.registerRealmGlobal global
  | .deregisterRealmGlobal global => h.deregisterRealmGlobal global
  | .addModuleRoot object => h.addModuleRoot object
  | .addPinnedRoot object => h.addPinnedRoot object
  | .internString hash text => (h.internString hash text).1
  | .symbolForKey key => (h.symbolForKey key).1
  | .wellKnownSymbol which => (h.wellKnownSymbol which).1
  | .sweepStep space => h.sweepStep space
  | .forceCollect => h.forceCollect

/-- The shapes a cell names without reporting them: transition targets. -/
def weakRefs : (space : Space) → Cell space → List Ref
  | .shapes, (s : Shape) => s.transitions.edges.map fun e => (.shapes, e.2)
  | .objects, _ | .strings, _ | .symbols, _ | .bigints, _ => []

def CellLive (h : Heap) (space : Space) (value : Cell space) : Prop :=
  ∀ r ∈ trace value ++ weakRefs space value, h.isAlive r = true

/-- **The mutator's contract**: a call stores and follows handles of live slots
only. -/
def Kept (h : Heap) : GcOp → Prop
  | .alloc space value => h.CellLive space value
  | .write space i value => h.isAlive (space, i) = true ∧ h.CellLive space value
  | .setRoots values => ∀ r ∈ trace values, h.isAlive r = true
  | .addRoot value => ∀ r ∈ trace value, h.isAlive r = true
  | .addShapeRoot shape => h.isAlive (.shapes, shape) = true
  | .bindShape obj shape => h.isAlive (.objects, obj) = true ∧ h.isAlive (.shapes, shape) = true
  | .registerRealmGlobal object | .addModuleRoot object | .addPinnedRoot object =>
    h.isAlive (.objects, object) = true
  | .removeRoot _ | .deregisterRealmGlobal _ | .internString .. | .symbolForKey _
  | .wellKnownSymbol _ | .sweepStep _ | .forceCollect => True

def GcOp.target : GcOp → Option Ref
  | .write space i _ => some (space, i)
  | .bindShape obj _ => some (.objects, obj)
  | _ => none

end Heap

end V12
