/-
V12.Interp.Coercions — `to_primitive_with_hint`, `to_number` and `add` of
`v12-interp/src/ops.rs`, and the `Add` arm over them.

What the conversions find in the heap and in the program is a `Coercions`: the
text of a string as a number, the properties of an object, the calls of its
methods. `none` is an exception.
-/
import V12.Interp.Bitwise

namespace V12.Interp

open V12.Heap V12.Heap.JsValue

def addF64 (l r : BitVec 64) : BitVec 64 :=
  (Float.ofBits (.ofBitVec l) + Float.ofBits (.ofBitVec r)).toBits.toBitVec

/-- `f64::NAN`. -/
def nanF64 : BitVec 64 := 0x7FF8000000000000

structure Coercions (W : Type) where
  /-- `string_to_number` of the text of a string. -/
  stringToNumber : W → Nat → BitVec 64
  /-- `to_js_string`. -/
  toJsString : W → JsValue → Option (Nat × W)
  concat : W → Nat → Nat → Nat × W
  /-- `get_property` of an object under a name. -/
  getProperty : W → Nat → String → Option (JsValue × W)
  /-- `call_value` of a method on an object, without arguments. -/
  callMethod : W → Nat → Nat → Option (JsValue × W)

inductive PrimitiveHint where
  | default | number | string
  deriving DecidableEq

/-- The order `to_primitive_with_hint` tries the methods in. -/
def PrimitiveHint.order : PrimitiveHint → List String
  | .string => ["toString", "valueOf"]
  | .default | .number => ["valueOf", "toString"]

def isObject : JsValue → Bool
  | .object _ => true
  | _ => false

def isString : JsValue → Bool
  | .string _ => true
  | _ => false

namespace Coercions

variable {W : Type} (C : Coercions W)

def toPrimitiveFrom (h : Nat) : List String → W → Option (JsValue × W)
  | [], _ => none
  | name :: names, w =>
    match C.getProperty w h name with
    | none => none
    | some (.object f, w₁) =>
      match C.callMethod w₁ f h with
      | none => none
      | some (r, w₂) => if isObject r then toPrimitiveFrom h names w₂ else some (r, w₂)
    | some (_, w₁) => toPrimitiveFrom h names w₁

/-- `to_primitive_with_hint`. -/
def toPrimitiveWithHint (hint : PrimitiveHint) (v : JsValue) (w : W) : Option (JsValue × W) :=
  match v with
  | .object h => C.toPrimitiveFrom h hint.order w
  | _ => some (v, w)

/-- `to_number`. -/
def toNumber (w : W) (v : JsValue) : BitVec 64 :=
  match numOf v with
  | some n => n
  | none =>
    match v with
    | .bool b => f64OfInt (if b then 1 else 0)
    | .null => f64OfInt 0
    | .string h => C.stringToNumber w h
    | _ => nanF64

/-- `add`, on primitives. -/
def add (l r : JsValue) (w : W) : Option (JsValue × W) :=
  if isString l || isString r then do
    let (ls, w₁) ← C.toJsString w l
    let (rs, w₂) ← C.toJsString w₁ r
    let (h, w₃) := C.concat w₂ ls rs
    some (.string h, w₃)
  else some (boxNumber (addF64 (C.toNumber w l) (C.toNumber w r)), w)

/-- The arm of `Add`. -/
def addArm (l r : JsValue) (w : W) : Option (JsValue × W) := do
  let (l, w₁) ← C.toPrimitiveWithHint .default l w
  let (r, w₂) ← C.toPrimitiveWithHint .default r w₁
  C.add l r w₂

theorem toPrimitiveFrom_primitive {h : Nat} {names : List String} {w w' : W} {v : JsValue}
    (hv : C.toPrimitiveFrom h names w = some (v, w')) : isObject v = false := by
  induction names generalizing w with
  | nil => cases hv
  | cons name names ih =>
    unfold toPrimitiveFrom at hv
    split at hv
    case h_1 => cases hv
    case h_2 =>
      split at hv
      case h_1 => cases hv
      case h_2 r w₂ _ =>
        by_cases hr : isObject r = true
        · rw [if_pos hr] at hv
          exact ih hv
        · rw [if_neg hr] at hv
          cases hv
          exact Bool.eq_false_iff.mpr hr
    case h_3 => exact ih hv

theorem toPrimitiveWithHint_primitive {hint : PrimitiveHint} {u v : JsValue} {w w' : W}
    (hv : C.toPrimitiveWithHint hint u w = some (v, w')) : isObject v = false := by
  cases u with
  | object h => exact C.toPrimitiveFrom_primitive hv
  | _ =>
    cases hv
    rfl

end Coercions

theorem numOf_fromF64_isSome (n : BitVec 64) : (numOf (fromF64 n)).isSome = true := by
  unfold fromF64
  split
  case isTrue => rfl
  case isFalse => rfl

theorem numOf_boxNumber_isSome (n : BitVec 64) : (numOf (boxNumber n)).isSome = true := by
  unfold boxNumber
  split
  · split
    · rename_i hrange
      rw [fromI32Smi, if_pos hrange]
      rfl
    · exact numOf_fromF64_isSome n
  · exact numOf_fromF64_isSome n

end V12.Interp
