/-
V12.Heap.Ropes — the strings of the heap, from `v12-heap/src/string.rs` and the
string operations of `v12-heap/src/gc.rs`.

Panics are `none`, and so is an addition that leaves `u32`, which panics in a
debug build and wraps in a release build. The walk over a rope and the walk
of `rope_depth` keep explicit stacks, their tops first; their fuel is a bound on
the nodes visited.
-/
import V12.Heap.Gc
import Mathlib.Algebra.Ring.Nat

namespace V12.Heap

/-! ## §1 Lengths -/

def u32Limit : Nat := 4294967296

namespace V12Str

def len (s : V12Str) : Nat :=
  match s.storage with
  | .latin1 bytes => bytes.length
  | .utf16 units => units.length
  | .cons _ _ len | .sliced _ _ len => len

/-- `len_u32`. -/
def lenU32 (s : V12Str) : Option Nat := if s.len < u32Limit then some s.len else none

def isFlat (s : V12Str) : Bool :=
  match s.storage with
  | .latin1 _ | .utf16 _ => true
  | .cons .. | .sliced .. => false

end V12Str

/-- `u32` addition, where it does not overflow. -/
def checkedAdd (a b : Nat) : Option Nat := if a + b < u32Limit then some (a + b) else none

def widen (byte : BitVec 8) : BitVec 16 := byte.zeroExtend 16

/-- `Heap::get` of a string. -/
def str (h : Heap) (i : Nat) : Option V12Str := h.get (.strings, i)

/-! ## §2 Walking -/

/-- One pending subtree visit: `take` units of `node` from `skip` on. -/
structure WalkTask where
  node : Nat
  skip : Nat
  take : Nat

/-- A run of code units of one flat leaf. -/
inductive LeafRun where
  | latin1 (bytes : List (BitVec 8))
  | utf16 (units : List (BitVec 16))

def LeafRun.units : LeafRun → List (BitVec 16)
  | .latin1 bytes => bytes.map widen
  | .utf16 units => units

/-- `leaf_window`; slicing out of bounds panics. -/
def leafWindow {α : Type} (leaf : List α) (skip take : Nat) : Option (List α) :=
  if skip + take ≤ leaf.length then some ((leaf.drop skip).take take) else none

/-- `queue_cons_range`: the right-hand piece below the left one. -/
def queueConsRange (h : Heap) (stack : List WalkTask) (left right skip take : Nat) :
    Option (List WalkTask) := do
  let leftLen ← (← h.str left).lenU32
  let stop ← checkedAdd skip take
  let stack :=
    if leftLen < stop then ⟨right, skip - leftLen, stop - max leftLen skip⟩ :: stack else stack
  let leftEnd := min leftLen stop
  some (if skip < leftEnd then ⟨left, skip, leftEnd - skip⟩ :: stack else stack)

/-- The loop of `walk_leaves`: the runs it visits, in order. -/
def walkFrom (h : Heap) : Nat → List WalkTask → Option (List LeafRun)
  | _, [] => some []
  | 0, _ :: _ => none
  | fuel + 1, task :: stack =>
    match h.str task.node with
    | none => none
    | some s =>
      match s.storage with
      | .latin1 bytes =>
        (leafWindow bytes task.skip task.take).bind fun window =>
          (walkFrom h fuel stack).map (.latin1 window :: ·)
      | .utf16 units =>
        (leafWindow units task.skip task.take).bind fun window =>
          (walkFrom h fuel stack).map (.utf16 window :: ·)
      | .cons left right _ =>
        (h.queueConsRange stack left right task.skip task.take).bind (walkFrom h fuel)
      | .sliced parent startUtf16 _ =>
        (checkedAdd startUtf16 task.skip).bind fun skip =>
          walkFrom h fuel (⟨parent, skip, task.take⟩ :: stack)

/-- Every visit on the way to a unit is at another node. -/
def walkFuel (h : Heap) (take : Nat) : Nat := take * (h.spaces .strings).slots.length + 1

/-- `Seed`. -/
inductive Seed where
  | resident (handle : Nat)
  | owned (value : V12Str)

/-- `walk_leaves`. -/
def walkLeaves (h : Heap) : Seed → Option (List LeafRun)
  | .resident handle => do
    let len ← (← h.str handle).lenU32
    h.walkFrom (h.walkFuel len) (if 0 < len then [⟨handle, 0, len⟩] else [])
  | .owned value =>
    match value.storage with
    | .latin1 bytes => some (if bytes.isEmpty then [] else [.latin1 bytes])
    | .utf16 units => some (if units.isEmpty then [] else [.utf16 units])
    | .cons left right len =>
      if 0 < len then (h.queueConsRange [] left right 0 len).bind (h.walkFrom (h.walkFuel len))
      else some []
    | .sliced parent startUtf16 len =>
      h.walkFrom (h.walkFuel len) (if 0 < len then [⟨parent, startUtf16, len⟩] else [])

/-! ## §3 Materializing, hashing, comparing -/

/-- The buffers of `materialize`. -/
structure Buffers where
  allLatin1 : Bool
  latin1 : List (BitVec 8)
  utf16 : List (BitVec 16)

/-- The visitor of `materialize`: the first UTF-16 run migrates what was collected. -/
def Buffers.visit (b : Buffers) : LeafRun → Buffers
  | .latin1 bytes =>
    if b.allLatin1 then { b with latin1 := b.latin1 ++ bytes }
    else { b with utf16 := b.utf16 ++ bytes.map widen }
  | .utf16 units =>
    if b.allLatin1 then ⟨false, [], b.utf16 ++ b.latin1.map widen ++ units⟩
    else { b with utf16 := b.utf16 ++ units }

def Buffers.text (b : Buffers) : FlatText :=
  if b.allLatin1 then ⟨.latin1 b.latin1, rfl⟩ else ⟨.utf16 b.utf16, rfl⟩

def materialize (h : Heap) (seed : Seed) : Option FlatText :=
  (h.walkLeaves seed).map fun runs => (runs.foldl Buffers.visit ⟨true, [], []⟩).text

/-- `FNV_OFFSET_BASIS_32`. -/
def fnvOffsetBasis : BitVec 32 := 0x811C9DC5#32

/-- `feed_fnv`. -/
def feedFnv (state : BitVec 32) (unit : BitVec 16) : BitVec 32 :=
  (state ^^^ unit.zeroExtend 32) * 0x01000193#32

def fnv (units : List (BitVec 16)) : BitVec 32 := units.foldl feedFnv fnvOffsetBasis

/-- `content_hash`, run by run. -/
def contentHash (h : Heap) (seed : Seed) : Option (BitVec 32) :=
  (h.walkLeaves seed).map fun runs =>
    runs.foldl (fun state run => run.units.foldl feedFnv state) fnvOffsetBasis

/-- `hash_flat`; a composite panics. -/
def hashFlat (storage : StrStorage) : Option (BitVec 32) := storage.flatUnits.map fnv

def flatUnitsEqual : StrStorage → StrStorage → Bool
  | .latin1 x, .latin1 y => x == y
  | .utf16 x, .utf16 y => x == y
  | .latin1 x, .utf16 y | .utf16 y, .latin1 x => x.map widen == y
  | _, _ => false

/-! ## §4 The operations -/

/-- `with_pinned_string_roots`. -/
def withPinnedStringRoots {α : Type} (h : Heap) (values : List Nat) (build : Heap → Heap × α) :
    Heap × α :=
  let r := build { h with roots := h.roots ++ values.map .string }
  ({ r.1 with roots := r.1.roots.take h.roots.length }, r.2)

/-- `flatten`. -/
def flatten (h : Heap) (handle : Nat) : Option Heap := do
  let s ← h.str handle
  if s.isFlat then some h
  else
    let text ← h.materialize (.resident handle)
    some (h.write .strings handle ⟨text.storage, s.hash⟩)

/-- The loop of `rope_depth`. -/
def ropeDepthFrom (h : Heap) : Nat → List (Nat × Nat) → Nat → Option Nat
  | _, [], maxDepth => some maxDepth
  | 0, _ :: _, _ => none
  | fuel + 1, (handle, depth) :: stack, maxDepth =>
    match h.str handle with
    | none => none
    | some s =>
      match s.storage with
      | .cons left right _ =>
        ropeDepthFrom h fuel ((right, depth + 1) :: (left, depth + 1) :: stack) (max maxDepth depth)
      | .sliced parent _ _ =>
        ropeDepthFrom h fuel ((parent, depth + 1) :: stack) (max maxDepth depth)
      | .latin1 _ | .utf16 _ => ropeDepthFrom h fuel stack (max maxDepth depth)

/-- `rope_depth`: a shared node is visited once for each path to it. -/
def ropeDepth (h : Heap) (handle : Nat) : Option Nat :=
  h.ropeDepthFrom (2 ^ (h.spaces .strings).slots.length) [(handle, 1)] 0

/-- `CONCAT_EAGER_FLATTEN_MAX_UNITS`. -/
def concatEagerFlattenMaxUnits : Nat := 128

/-- `ROPE_MAX_DEPTH`. -/
def ropeMaxDepth : Nat := 64

/-- Whether `concat` flattens its result at once. -/
def flattensEagerly (h : Heap) (handle total : Nat) : Option Bool :=
  if total ≤ concatEagerFlattenMaxUnits then some true
  else (h.ropeDepth handle).map fun depth => ropeMaxDepth < depth

/-- `concat`. -/
def concat (h : Heap) (left right : Nat) : Option (Heap × Nat) := do
  let leftLen ← (← h.str left).lenU32
  let rightLen ← (← h.str right).lenU32
  let total ← checkedAdd leftLen rightLen
  let r := h.withPinnedStringRoots [left, right] fun h =>
    h.alloc .strings ⟨.cons left right total, none⟩
  if ← r.1.flattensEagerly r.2 total then
    let flat ← r.1.flatten r.2
    some (flat, r.2)
  else some r

/-- `slice_string`; the inner `none` is its `None`. -/
def sliceString (h : Heap) (parent startUtf16 len : Nat) : Option (Heap × Option Nat) :=
  match checkedAdd startUtf16 len with
  | none => some (h, none)
  | some stop => do
    let parentLen ← (← h.str parent).lenU32
    if parentLen < stop then some (h, none)
    else
      let r := h.withPinnedStringRoots [parent] fun h =>
        h.alloc .strings ⟨.sliced parent startUtf16 len, none⟩
      some (r.1, some r.2)

/-- `string_hash`. -/
def stringHash (h : Heap) (handle : Nat) : Option (Heap × BitVec 32) := do
  let s ← h.str handle
  match s.hash with
  | some hash => some (h, hash)
  | none =>
    let hash ← h.contentHash (.resident handle)
    some (h.write .strings handle { s with hash := some hash }, hash)

/-- `strings_equal`. -/
def stringsEqual (h : Heap) (a b : Nat) : Option Bool :=
  if a = b then some true
  else do
    let sa ← h.str a
    let sb ← h.str b
    if sa.len ≠ sb.len then some false
    else if sa.isFlat && sb.isFlat then some (flatUnitsEqual sa.storage sb.storage)
    else
      let fa ← h.materialize (.resident a)
      let fb ← h.materialize (.resident b)
      some (flatUnitsEqual fa.storage fb.storage)

/-- `intern_string`, from the string the caller owns. -/
def internOwned (h : Heap) (text : V12Str) : Option (Heap × Nat) := do
  let flat ← h.materialize (.owned text)
  let hash ← hashFlat flat.storage
  some (h.internString hash flat)

end V12.Heap
