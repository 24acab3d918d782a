/-
V12.Interp.ArrayIndex — which keys are array indices.

Four functions decide it: `array_index_of` and `prop_key_index` of the
interpreter, `prop_key_as_index` of `v12-engine/src/internal_methods.rs` and
`array_index` of `v12-engine/src/builtins/json.rs`. The first takes any key, the
others the text of a key.
-/
import V12.Engine.Number
import V12.Heap.Ropes
import V12.Interp.Bitwise
import V12.Lib.Utf8

namespace V12.Interp

open V12.Heap V12.Heap.JsValue Lib.Binary64 Lib.Utf8

/-! ## §1 Keys -/

/-- A property key: a string that has been flattened, or a number. -/
inductive Key where
  | string (storage : StrStorage)
  | number (v : Numeric)

/-! ## §2 The interpreter -/

/-- `acc.checked_mul(10)?.checked_add(digit)?`. -/
def pushDigit (acc digit : Nat) : Option Nat :=
  if acc * 10 < u32Limit ∧ acc * 10 + digit < u32Limit then some (acc * 10 + digit) else none

def scanBytes : List Nat → Nat → Option Nat
  | [], acc => some acc
  | b :: bs, acc => if asciiDigit b then (pushDigit acc (b - 48)).bind (scanBytes bs) else none

def scanUnits : List (BitVec 16) → Nat → Option Nat
  | [], acc => some acc
  | u :: us, acc =>
    if u.toNat > 127 ∨ asciiDigit (u.toNat % 256) = false then none
    else (pushDigit acc (u.toNat % 256 - 48)).bind (scanUnits us)

def integralIndex (v : JsValue) : Option Nat := do
  let n ← v.asF64
  if IsFinite n ∧ IsWhole n ∧ (negative n = false ∨ units n = 0) ∧
      units n < 4294967296 * unitsPerOne
  then some (trunc n).toNat
  else none

/-- `array_index_of`. -/
def arrayIndexOf : Key → Option Nat
  | .number v =>
    match v.1.asSmi with
    | some n => if 0 ≤ n ∧ n < u32Limit then some n.toNat else none
    | none => integralIndex v.1
  | .string (.latin1 bytes) =>
    if bytes = [] ∨ bytes.length > 10 then none else scanBytes (bytes.map BitVec.toNat) 0
  | .string (.utf16 units) =>
    if units = [] ∨ units.length > 10 then none else scanUnits units 0
  | .string _ => none

/-- `prop_key_index`; the text is that of the code units. -/
def propKeyIndex (key : StrStorage) : Option Nat := do
  let text := Lib.Utf16.decode (← key.flatUnits)
  if text = [] ∨ (bytes text).length > 10 then none else scanBytes (bytes text) 0

/-! ## §3 The engine -/

/-- The text of flat storage; the bytes of a Latin-1 string are read as UTF-8. -/
def storageText : StrStorage → Option (List Char)
  | .latin1 bytes => some (lossy (bytes.map BitVec.toNat))
  | .utf16 units => some (Lib.Utf16.decode units)
  | _ => none

/-- `prop_key_as_index`; `parse::<u32>` is given digits only. -/
def propKeyAsIndex (key : StrStorage) : Option Nat := do
  let text ← storageText key
  if text = [] ∨ (bytes text).length > 10 ∨ (bytes text).all asciiDigit = false then none
  else if (bytes text).length > 1 ∧ (bytes text).head? = some 48 then none
  else scanBytes (bytes text) 0

/-- `array_index` of a text. -/
def arrayIndex (text : List Char) : Option Nat :=
  if text = [] ∨ (bytes text).length > 10 ∨ (bytes text).all asciiDigit = false then none
  else if (bytes text).length > 1 ∧ text.head? = some '0' then none
  else (scanBytes (bytes text) 0).bind fun n => if n = 4294967295 then none else some n

def jsonIndex (key : StrStorage) : Option Nat := arrayIndex ((storageText key).getD [])

/-! ## §4 The property and its condition -/

def IsArrayIndex (t : List Char) (i : Nat) : Prop := i < 4294967295 ∧ t = Nat.toDigits 10 i

/-- All four functions answer `i` exactly if `expected` holds of it; `index` is the first answer,
`key` and `key'` are the keys that the interpreter and the engine look up. -/
structure Answer (index : Option Nat) (key key' : StrStorage) (expected : Nat → Prop) : Prop where
  arrayIndexOf : ∀ i, index = some i ↔ expected i
  propKeyIndex : ∀ i, propKeyIndex key = some i ↔ expected i
  propKeyAsIndex : ∀ i, propKeyAsIndex key' = some i ↔ expected i
  jsonIndex : ∀ i, jsonIndex key' = some i ↔ expected i

def StoredAs (key : StrStorage) (t : List Char) : Prop := key.flatUnits = some (t.map unit)

/-- A key is taken for an index exactly if it is one. A number is looked up under its text. -/
def Classified (host : ShortestDigits) : Key → Prop
  | .string key => ∀ u, key.flatUnits = some u →
      Answer (arrayIndexOf (.string key)) key key fun i => ∃ t, u = t.map unit ∧ IsArrayIndex t i
  | .number v => ∀ x, numOf v.1 = some x → ∀ t, NumberToString x t → ∀ key key',
      StoredAs key (numberToString host x) → StoredAs key' (Engine.numberToString host x) →
      Answer (arrayIndexOf (.number v)) key key' (IsArrayIndex t)

/-- Up to ten digits, more than one of them, and the first is a zero. -/
def LeadingZero (u : List (BitVec 16)) : Prop :=
  1 < u.length ∧ u.length ≤ 10 ∧ (∀ c ∈ u, asciiDigit c.toNat = true) ∧ u.head? = some (unit '0')

/-- No string with a leading zero, no negative zero, and not 2³² − 1. -/
def Canonical : Key → Prop
  | .string key => ∀ u, key.flatUnits = some u →
      ¬ LeadingZero u ∧ u ≠ (Nat.toDigits 10 4294967295).map unit
  | .number v => ∀ x, numOf v.1 = some x →
      ¬ NegativeZero x ∧ ¬ (negative x = false ∧ units x = 4294967295 * unitsPerOne)

end V12.Interp
