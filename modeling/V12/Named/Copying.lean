/-
V12.Named.Copying — object spread and object rest, from
`v12-interp/src/object_ops.rs` (`op_merge_object`, `op_copy_object_rest`).

Both walk the records of the source's shape, as they were at the start, with
the cells as they were at the start.
-/
import V12.Heap.ElementsSnapshot
import V12.Heap.ShapeKinds
import V12.Named.Changes

namespace V12.Named

open V12.Heap V12.Interp

/-! ## §1 The operations -/

/-- What the heap says of keys: their contents, and the handles of interned texts. -/
structure KeyHeap (κ : Type) where
  /-- The text of a string's handle, the identity of a symbol. -/
  content : PropKey → κ
  /-- The decimal text of an element's index. -/
  indexContent : Nat → κ
  /-- `number_to_string`, interned. -/
  numberText : JsValue → Nat
  boolText : Bool → Nat
  toJsString : JsValue → Except JsValue Nat

/-- The key of an excluded value; a string's is the handle at hand. -/
def KeyHeap.exclKey {κ : Type} (keys : KeyHeap κ) : JsValue → Except JsValue PropKey
  | .string h => .ok (.string h)
  | .smi n => .ok (.string (keys.numberText (.smi n)))
  | .double bits => .ok (.string (keys.numberText (.double bits)))
  | .bool b => .ok (.string (keys.boolText b))
  | .symbol y => .ok (.symbol y)
  | v => (keys.toJsString v).map .string

namespace Store

def copiedValue (src : Store) (excluded : List PropKey) (d : Descriptor) : Option JsValue :=
  if d.key ∈ excluded then none
  else
    match d.slot with
    | none => none
    | some slot => src.liveCell (src.slotIndex slot)

def copyProperty (dst : Store) (key : PropKey) (val : JsValue) : Store :=
  match dst.tree.addProperty dst.object.shape key .default with
  | none => dst
  | some child => (dst.bindShape child).pushCell val

end Store

/-- A spread onto an object, or a rest with its excluded values, as a new object of the root
shape. -/
inductive CopyOp where
  | spread (target : JsObject) (isGlobal : Bool)
  | rest (rootShape : Nat) (prototype : Option Nat) (exclVals : List JsValue)

namespace CopyOp

/-- `excl_keys`. -/
def excluded {κ : Type} (keys : KeyHeap κ) : CopyOp → Except JsValue (List PropKey)
  | .spread .. => .ok []
  | .rest _ _ exclVals => exclVals.mapM keys.exclKey

def target (src : Store) : CopyOp → Store
  | .spread target isGlobal => ⟨src.tree, target, isGlobal, true⟩
  | .rest rootShape prototype _ =>
    ⟨src.tree.bind rootShape,
      { (default : JsObject) with shape := rootShape, prototype := prototype }, false, true⟩

def Valid (src : Store) (op : CopyOp) : Prop :=
  (op.target src).object.shape < src.tree.shapes.length

end CopyOp

namespace Store

/-! ## §2 What is to be copied -/

/-- A key of an own property. -/
inductive OwnKey where
  | index (i : Nat)
  | named (key : PropKey)
  deriving DecidableEq

def liveElements (s : Store) : List (Nat × JsValue) :=
  if s.object.kind = .array ∨ s.object.kind = .arguments then
    (List.range s.object.elementLen).filterMap fun i =>
      ((s.object.getElement i).filter fun v => !v.isHole).map fun v => (i, v)
  else []

def isString : PropKey → Bool
  | .string _ => true
  | .symbol _ => false

def firstPlaces (items : List PropKey) : List PropKey := (items.reverse.dedup).reverse

/-- The keys of the records and of the dictionary in the order of creation, strings before
symbols; a string that reads as an integer keeps its place. -/
def namedKeys (s : Store) : List PropKey :=
  let all := firstPlaces (s.records.map Descriptor.key ++
    ((s.object.dictionary.getD []).mergeSort fun a b => a.2.seq ≤ b.2.seq).map Prod.fst)
  all.filter isString ++ all.filter fun key => !isString key

def ownAttrs (s : Store) (key : PropKey) : Option Attrs :=
  match s.entry key with
  | some e =>
    if !e.isAccessor && s.holed e.slot then (s.record key).map Descriptor.attrs else some e.attrs
  | none => (s.record key).map Descriptor.attrs

/-- What a `Get` finds at an own enumerable property. -/
def enumerableOwn (s : Store) (key : PropKey) : Option OwnRead :=
  if (s.ownAttrs key).any Attrs.enumerable then s.icOwn key else none

variable {κ : Type} [DecidableEq κ]

def isExcluded (keys : KeyHeap κ) (excluded : List PropKey) (content : κ) : Bool :=
  (excluded.map keys.content).contains content

def wantedRead (keys : KeyHeap κ) (src : Store) (excluded : List PropKey) (key : PropKey) :
    Option OwnRead :=
  if isExcluded keys excluded (keys.content key) then none else src.enumerableOwn key

/-- The elements and then the named properties to be copied, each with what its `Get` finds. -/
def wanted (keys : KeyHeap κ) (src : Store) (excluded : List PropKey) :
    List (OwnKey × OwnRead) :=
  (src.liveElements.filter fun p => !isExcluded keys excluded (keys.indexContent p.1)).map
      (fun p => (.index p.1, .value p.2)) ++
    src.namedKeys.filterMap fun key =>
      (src.wantedRead keys excluded key).map fun r => (.named key, r)

def copies (src : Store) (excluded : List PropKey) : List (PropKey × JsValue) :=
  src.records.filterMap fun d => (src.copiedValue excluded d).map fun val => (d.key, val)

def copyReads (src : Store) (excluded : List PropKey) : List (OwnKey × OwnRead) :=
  (src.copies excluded).map fun c => (.named c.1, .value c.2)

def Defines (dst : Store) (key : PropKey) : Prop :=
  ∀ val, val.isHole = false →
    (dst.copyProperty key val).icOwn key = some (.value val) ∧
      ∀ k, k ≠ key → (dst.copyProperty key val).icOwn k = dst.icOwn k

def copyStep (dst : Store) (c : PropKey × JsValue) : Store := dst.copyProperty c.1 c.2

/-- The source's own enumerable properties are copied, each once and in own-key order, and each
copy defines its property on the target. What the own methods of a proxy or of a namespace
report is not in the storage. -/
structure CopiedRight (keys : KeyHeap κ) (src dst : Store) (excluded : List PropKey) : Prop where
  all : ∀ reports : List (OwnKey × OwnRead), src.copyReads excluded =
    if Machine.Plain src.object.kind then src.wanted keys excluded else reports
  defines : Lib.StepsMeet copyStep (fun s c => s.Defines c.1) dst (src.copies excluded)

end Store

/-- The copy holds every key of the source that is not excluded, as the source has it. -/
def CopyOp.Held {κ : Type} [DecidableEq κ] (keys : KeyHeap κ) (src : Store) (op : CopyOp) :
    Prop :=
  ∀ excluded, op.excluded keys = .ok excluded →
    src.CopiedRight keys (op.target src) excluded

/-! ## §3 When it holds -/

namespace Store

/-- Where a read of a key ends. -/
inductive Shown where
  | cell (i : Nat)
  | getter (g : Option Nat)
  deriving DecidableEq

/-- Where a read of `k` ends if the shape has `record` for it. -/
def shownBy (s : Store) (record : Option Descriptor) (k : PropKey) : Option Shown :=
  let shapeLevel : Option Shown :=
    match record with
    | some (.data _ slot _) => if s.holed slot then none else some (.cell (s.slotIndex slot))
    | some (.accessor _ getter _ _) => some (.getter getter)
    | none => none
  match s.entry k with
  | some e =>
    if e.isAccessor then some (.getter e.getter)
    else if s.holed e.slot then shapeLevel
    else some (.cell (s.slotIndex e.slot))
  | none => shapeLevel

/-- The record of `k` in the shape that a copy of `key` leads to: the one on the shape's edge,
or else the shape with one more record. -/
def recordAfter (s : Store) (key k : PropKey) : Option Descriptor :=
  match s.tree.edge? s.object.shape key .default with
  | some child => s.tree.lookup child k
  | none => (s.record k).or (if key = k then some (.data key s.numOwn .default) else none)

/-- A copy of `key` goes to the cell behind the last, which no other property has, and the other
properties stay what they are. -/
structure Ready (s : Store) (key : PropKey) : Prop where
  next : s.shownBy (s.recordAfter key key) key = some (.cell s.size)
  others : ∀ k, k ≠ key → s.shownBy (s.recordAfter key k) k = s.shownBy (s.record k) k
  free : ∀ k, k ≠ key → s.shownBy (s.record k) k ≠ some (.cell s.size)

/-- The source is plain: its own enumerable properties are the live data records. -/
structure CopyPlain {κ : Type} [DecidableEq κ] (keys : KeyHeap κ) (src : Store)
    (excluded : List PropKey) : Prop where
  kind : Machine.Plain src.object.kind
  /-- No element, but for excluded ones. -/
  elements : ∀ p ∈ src.liveElements, isExcluded keys excluded (keys.indexContent p.1) = true
  /-- A property to be copied has a record to be copied. -/
  recorded : ∀ key ∈ src.namedKeys, (src.wantedRead keys excluded key).isSome = true →
    ∃ d ∈ src.records, d.key = key ∧ (src.copiedValue excluded d).isSome = true
  /-- A record that is copied is a property to be copied, with its value. -/
  reads : ∀ d ∈ src.records, ∀ val, src.copiedValue excluded d = some val →
    src.wantedRead keys excluded d.key = some (.value val)
  /-- The copied records are in own-key order, none of a key twice. -/
  order : List.Sublist ((src.copies excluded).map Prod.fst) src.namedKeys

end Store

def CopyOp.Plain {κ : Type} [DecidableEq κ] (keys : KeyHeap κ) (src : Store) (op : CopyOp) :
    Prop :=
  ∀ excluded, op.excluded keys = .ok excluded →
    src.CopyPlain keys excluded ∧
      Lib.StepsMeet Store.copyStep (fun s c => s.Ready c.1) (op.target src) (src.copies excluded)

end V12.Named
