/-
V12.Interp.ArraySort — `array_sort_callback` of `v12-interp/src/call_setup.rs`
with a comparator.

The comparator is any code: it takes the state of the program to another, the
array that is sorted included, and returns a value or throws. The elements of
the array are data and its prototypes have none. Writing a hole of an array that
is not extensible throws, and leaves what was written so far. What is asked of
the sort is stated on the numbers that the values returned stand for (§3).
-/
import V12.Interp.Equality
import V12.Lib.StableInsert

namespace V12.Interp.ArraySort

open V12.Heap V12.Heap.JsValue V12.Interp Lib Lib.Binary64

/-! ## §1 Arrays and comparators -/

def IsValue : JsValue → Prop
  | .hole => False
  | .smi n => InSmi n
  | _ => True

/-- A value of the language, as an element or an answer: never the hole. -/
def Value : Type := { v : JsValue // IsValue v }

instance : DecidableEq Value := inferInstanceAs (DecidableEq { v : JsValue // IsValue v })

def Value.undefined : Value := ⟨.undefined, trivial⟩

def Value.isUndefined (v : Value) : Bool := v.1 = .undefined

/-- An array: its `length`, its elements without the holes, and whether it takes new ones
(`FLAG_NOT_EXTENSIBLE` is not set). -/
structure Arr where
  length : Nat
  elements : Nat → Option Value
  extensible : Bool

/-- `replace_elements`: the store becomes the values, `length` is left. -/
def Arr.replaceElements (a : Arr) (values : List Value) : Arr :=
  { a with elements := fun i => values[i]? }

/-- The array takes a value at the index: an element is there, or may be added. -/
def Arr.takes (a : Arr) (i : Nat) : Bool := a.extensible || (a.elements i).isSome

/-- `array_set_element`: the store holds the value, `length` is raised to reach it. -/
def Arr.put (a : Arr) (i : Nat) (v : Value) : Arr :=
  { a with
    length := max a.length (i + 1)
    elements := fun j => if j = i then some v else a.elements j }

/-- `set_property` at an index, which throws where the array does not take the value. -/
def Arr.set (a : Arr) (i : Nat) (v : Value) : Option Arr := if a.takes i then some (a.put i v) else none

/-- `delete_property_or_throw` at an index. -/
def Arr.delete (a : Arr) (i : Nat) : Arr :=
  { a with elements := fun j => if j = i then none else a.elements j }

/-- The state of the program: the array, and all else. -/
structure World (U : Type*) where
  array : Arr
  rest : U

/-- A comparator as its calls: `call_value` on two values. -/
abbrev Comparator (U E : Type*) := World U → Value → Value → World U × Except E Value

variable {U E : Type*}

/-! ## §2 The source -/

/-- The cast of a double to `i64`, which saturates. -/
def castI64 (x : BitVec 64) : Int :=
  if IsNaN x then 0
  else if IsFinite x then max (-2 ^ 63) (min (trunc x) (2 ^ 63 - 1))
  else if negative x then -2 ^ 63 else 2 ^ 63 - 1

def decision (r : Value) : Int := ((r.1.asSmi).or (r.1.asF64.map castI64)).getD 0

/-- The loop that finds the place of `v` among the values sorted so far; no index is past
their end. -/
def findPlace (cmp : Comparator U E) (sorted : List Value) (v : Value) (w : World U)
    (lo hi : Nat) : World U × Except E Nat :=
  if _h : lo < hi then
    let mid := (lo + hi) / 2
    match cmp w (sorted.getD mid .undefined) v with
    | (w', .error e) => (w', .error e)
    | (w', .ok r) =>
      if decision r ≤ 0 then findPlace cmp sorted v w' (mid + 1) hi
      else findPlace cmp sorted v w' lo mid
  else (w, .ok lo)
termination_by hi - lo

def insertAll (cmp : Comparator U E) (w : World U) (sorted : List Value) :
    List Value → World U × Except E (List Value)
  | [] => (w, .ok sorted)
  | v :: rest =>
    match findPlace cmp sorted v w 0 sorted.length with
    | (w', .error e) => (w', .error e)
    | (w', .ok lo) => insertAll cmp w' (sorted.insertIdx lo v) rest

def MAX_CALLBACK_SCAN : Nat := 1000000

/-- `callback_len`. -/
def callbackLen (a : Arr) : Nat := min a.length MAX_CALLBACK_SCAN

def present (a : Arr) : List Value := (List.range (callbackLen a)).filterMap a.elements

def defined (a : Arr) : List Value := (present a).filter fun v => !v.isUndefined

def undefinedCount (a : Arr) : Nat := ((present a).filter Value.isUndefined).length

/-- The values are written from index `i` on, and whether all were taken. -/
def writeFrom (a : Arr) (i : Nat) : List Value → Arr × Bool
  | [] => (a, true)
  | v :: rest =>
    match a.set i v with
    | none => (a, false)
    | some a' => writeFrom a' (i + 1) rest

/-- The sorted values are written back, and what is behind them is deleted. -/
def writeBack (a : Arr) (values : List Value) (len : Nat) : Arr × Bool :=
  if values.length = len then (a.replaceElements values, true)
  else
    match writeFrom a 0 values with
    | (a', false) => (a', false)
    | (a', true) => ((List.range' values.length (len - values.length)).foldl Arr.delete a', true)

/-- What a sort throws: what the comparator threw, or the error of a write that was refused. -/
inductive Thrown (E : Type*) where
  | comparator (e : E)
  | refused

/-- `array_sort_callback`. -/
def arraySort (cmp : Comparator U E) (w : World U) : World U × Except (Thrown E) Unit :=
  match insertAll cmp w [] (defined w.array) with
  | (w', .error e) => (w', .error (.comparator e))
  | (w', .ok sorted) =>
    let undefineds := List.replicate (undefinedCount w.array) Value.undefined
    let (array, written) := writeBack w'.array (sorted ++ undefineds) (callbackLen w.array)
    ({ w' with array := array }, if written then .ok () else .error .refused)

/-! ## §3 The property -/

/-- The number that a value stands for, where `toNumber` converts what is none. -/
def fullNumber (toNumber : Value → BitVec 64) (r : Value) : BitVec 64 := (numOf r.1).getD (toNumber r)

def IsPositive (x : BitVec 64) : Prop := ¬ IsNaN x ∧ negative x = false ∧ units x ≠ 0

def IsNegative (x : BitVec 64) : Prop := ¬ IsNaN x ∧ negative x = true ∧ units x ≠ 0

/-- The comparator returns `f` of its arguments, whose sign is that of a total preorder on the
values. -/
structure Consistent (toNumber : Value → BitVec 64) (cmp : Comparator U E) (values : List Value)
    (f : Value → Value → Value) (le : Value → Value → Bool) : Prop where
  returns : ∀ w, ∀ a ∈ values, ∀ b ∈ values, (cmp w a b).2 = .ok (f a b)
  positive : ∀ a ∈ values, ∀ b ∈ values,
    (IsPositive (fullNumber toNumber (f a b)) ↔ le a b = false)
  negative : ∀ a ∈ values, ∀ b ∈ values,
    (IsNegative (fullNumber toNumber (f a b)) ↔ le b a = false)
  preorder : PreorderOn (· ∈ values) le

/-- The states that calls of the comparator lead to. -/
inductive Reached (cmp : Comparator U E) (w : World U) : World U → Prop
  | start : Reached cmp w w
  | call {w' : World U} (h : Reached cmp w w') (a b : Value) : Reached cmp w (cmp w' a b).1

def allValues (a : Arr) : List Value := (List.range a.length).filterMap a.elements

def allDefined (a : Arr) : List Value := (allValues a).filter fun v => !v.isUndefined

/-- The array has the values from the front, and holes behind them up to its old length. -/
structure Laid (a : Arr) (len : Nat) (values : List Value) : Prop where
  elements : ∀ i < len, a.elements i = values[i]?
  visible : values.length ≤ a.length

/-- A result: the values compared, in their new order, before those that are undefined. -/
structure Result (toNumber : Value → BitVec 64) (cmp : Comparator U E) (before after : World U)
    (sorted undefineds : List Value) : Prop where
  laid : Laid after.array before.array.length (sorted ++ undefineds)
  permuted : (sorted ++ undefineds).Perm (allValues before.array)
  sortedDefined : ∀ v ∈ sorted, v.isUndefined = false
  undefined : ∀ v ∈ undefineds, v.isUndefined = true
  ordered : ∀ f le, Consistent toNumber cmp (allDefined before.array) f le →
    sorted.Pairwise fun a b => le a b = true
  stable : ∀ f le, Consistent toNumber cmp (allDefined before.array) f le →
    ∀ a ∈ sorted, sorted.filter (tied le a) = (allDefined before.array).filter (tied le a)

/-- The sort of an array loses no element: it ends with a permutation in the order of a consistent
comparator, or with what the comparator threw. -/
structure SortsRight (toNumber : Value → BitVec 64) (cmp : Comparator U E) (w : World U) : Prop where
  /-- Where the comparator throws, the array is what its calls have left. -/
  thrown : ∀ e, (arraySort cmp w).2 = .error (.comparator e) → Reached cmp w (arraySort cmp w).1
  taken : (arraySort cmp w).2 ≠ .error .refused
  sorted : (arraySort cmp w).2 = .ok () → ∃ sorted undefineds,
    Result toNumber cmp w (arraySort cmp w).1 sorted undefineds
  finished : ∀ f le, Consistent toNumber cmp (allDefined w.array) f le → (arraySort cmp w).2 = .ok ()

end V12.Interp.ArraySort
