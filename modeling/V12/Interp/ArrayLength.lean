/-
V12.Interp.ArrayLength — arrays and their `length`: `array_set_element`,
`set_property`, `delete_property`, `op_array_append` and `array_push_fallback` of
`v12-interp/src/property.rs` and `object_ops.rs`.

An array is its element store beside the value of its `length` slot.
-/
import V12.Heap.ElementsSnapshot
import V12.Interp.Bitwise
import V12.Lib.DoubleValue
import V12.Lib.Run

namespace V12.Interp.ArrayLength

open V12.Heap V12.Heap.JsValue Lib.Binary64 Lib.Binary64.Double

/-! ## §1 Arrays -/

structure JsArray where
  elements : ElementsStorage
  length : JsValue
  lengthWritable : Bool
  extensible : Bool

def JsArray.element (a : JsArray) (i : Nat) : Option JsValue := present (a.elements.getBoxed i)

def numberOf (v : JsValue) : Option Double := (numOf v).map ofBits

/-- `ops::box_number`. -/
def boxed (x : Double) : JsValue := boxNumber x.toBits

/-- `JsObject::array` and `JsObject::array_sparse`. -/
inductive Made where
  | array (values : List Boxed) (fits : values.length ≤ 1073741823)
  | sparse (len : Fin (2 ^ 32))

def Made.fresh : Made → JsArray
  | .array values _ => ⟨.rebuild (values.map fun v => v.1), .smi values.length, true, true⟩
  | .sparse len => ⟨.new, boxed (ofInt len), true, true⟩

/-! ## §2 Writes -/

/-- `array_set_element`. -/
def arraySetElement (a : JsArray) (idx : Nat) (value : JsValue) : JsArray :=
  let wanted := ofInt (ElementsDictionary.saturatingSucc idx)
  let current := (numberOf a.length).getD (ofInt 0)
  { a with
    elements := a.elements.set idx value
    length := if wanted.le current then a.length else boxed wanted }

/-- The prototype chain at an index: it has no say, takes a write or refuses it. -/
inductive Chain where
  | absent | takes | refuses

/-- `set_property` of an index; `false` is a thrown error. -/
def setElement (strict : Bool) (chain : Chain) (a : JsArray) (idx : Nat) (value : JsValue) :
    JsArray × Bool :=
  if (a.element idx).isSome then (arraySetElement a idx value, true)
  else
    match chain with
    | .takes => (a, true)
    | .refuses => (a, !strict)
    | .absent => if a.extensible then (arraySetElement a idx value, true) else (a, !strict)

/-- `set_property` of `"length"`, an own data property. -/
def setLength (strict : Bool) (a : JsArray) (value : JsValue) : JsArray × Bool :=
  if a.lengthWritable then ({ a with length := value }, true) else (a, !strict)

/-- `delete_property` of an index. -/
def deleteElement (a : JsArray) (idx : Nat) : JsArray :=
  { a with elements := a.elements.set idx .hole }

/-! ## §3 Appending -/

/-- `ToLength` of the value of the slot, in double arithmetic. -/
def toLength (toNumber : JsValue → Double) (v : JsValue) : Double :=
  let len := (numberOf v).getD (toNumber v)
  if len.isFinite && (ofInt 0).lt len then len.trunc else ofInt 0

/-- An item to push, and the prototype chain at its index. -/
structure Item where
  value : Element
  chain : Chain

/-- The write of an item, which is left out past the last array index. -/
def storeItem (a : JsArray) (len : Double) (item : Item) : JsArray × Bool :=
  if len.le (ofInt 4294967294) then setElement true item.chain a len.toI64.toNat item.value.1
  else (a, true)

/-- The loop of `array_push_fallback`. -/
def pushItems (a : JsArray) (len : Double) : List Item → JsArray × Double × Bool
  | [] => (a, len, true)
  | item :: items =>
    if (storeItem a len item).2 then pushItems (storeItem a len item).1 (len.add (ofInt 1)) items
    else ((storeItem a len item).1, len, false)

/-- `array_push_fallback`. -/
def arrayPush (toNumber : JsValue → Double) (a : JsArray) (items : List Item) : JsArray × Bool :=
  let pushed := pushItems a (toLength toNumber a.length) items
  if pushed.2.2 then setLength true pushed.1 (boxed pushed.2.1) else (pushed.1, false)

/-- `op_array_append` of a snapshot. -/
def arrayAppend (a : JsArray) (values : List Boxed) : JsArray :=
  if values = [] then a
  else
    { a with
      length := boxed (ofInt ((a.elements.len + values.length) % 2 ^ 32 : Nat))
      elements := values.foldl (fun e v => e.push v.1) a.elements }

/-! ## §4 Runs -/

inductive Op where
  | write (idx : Fin (2 ^ 32 - 1)) (value : Element) (strict : Bool) (chain : Chain)
  | delete (idx : Fin (2 ^ 32 - 1))
  | assign (value : Element) (strict : Bool)
  | push (items : List Item)
  | append (values : List Boxed)
  | freeze (lengthWritable extensible : Bool)

def perform (toNumber : JsValue → Double) (a : JsArray) : Op → JsArray × Bool
  | .write idx value strict chain => setElement strict chain a idx value.1
  | .delete idx => (deleteElement a idx, true)
  | .assign value strict => setLength strict a value.1
  | .push items => arrayPush toNumber a items
  | .append values => (arrayAppend a values, true)
  | .freeze lengthWritable extensible =>
    ({ a with
      lengthWritable := a.lengthWritable && lengthWritable
      extensible := a.extensible && extensible }, true)

def step (toNumber : JsValue → Double) (a : JsArray) (op : Op) : JsArray := (perform toNumber a op).1

/-! ## §5 The property -/

def validLength (toNumber : JsValue → Double) (v : JsValue) : Option Nat :=
  match (numberOf v).getD (toNumber v) with
  | .finite q => if q.den = 1 ∧ 0 ≤ q.num ∧ q.num < 2 ^ 32 then some q.num.toNat else none
  | _ => none

def LengthAbove (a : JsArray) : Prop :=
  ∃ n : Nat, n < 2 ^ 32 ∧ numberOf a.length = some (ofInt n) ∧ ∀ i, (a.element i).isSome → i < n

def StepRight (toNumber : JsValue → Double) (a : JsArray) (op : Op) : Prop :=
  match op with
  | .assign v _ =>
    if a.lengthWritable then
      match validLength toNumber v.1 with
      | some n => numberOf (step toNumber a op).length = some (ofInt n) ∧
          ∀ i, (step toNumber a op).element i = if i < n then a.element i else none
      | none => perform toNumber a op = (a, false)
    else step toNumber a op = a
  | .delete _ => (step toNumber a op).length = a.length
  | _ => True

/-- At every point of a run the length is above the indices, and the next step keeps to it. -/
def LengthKept (toNumber : JsValue → Double) (made : Made) (ops : List Op) : Prop :=
  ∀ before rest, ops = before ++ rest → LengthAbove (Lib.run (step toNumber) made.fresh before) ∧
    ∀ op ∈ rest.head?, StepRight toNumber (Lib.run (step toNumber) made.fresh before) op

end V12.Interp.ArrayLength
