/-
V12.Engine.NumberFormat — `toFixed`, `toPrecision` and `toExponential` of
`v12-engine/src/builtins/number.rs`.

The host rounds the exact value half to even; the three methods choose the digit
count and the notation. `denotes_iff`: the text is ECMAScript's exactly if the
number is no negative zero and no tie above an even number is rounded.
-/
import V12.Engine.Number
import V12.Lib.DecimalGrid

namespace V12.Engine

open Lib.Binary64 Lib.Decimal
open V12.Interp (ShortestDigits Scientific pointed signText zeros NumberToString NegativeZero)

/-! ## §1 The host -/

def magnitude (x : BitVec 64) : ℚ := (units x : ℚ) / unitsPerOne

/-- A whole number with a point in front of its last `d` digits, and one digit at least in front
of that. -/
def withFraction (d n : Nat) : List Char :=
  let ds := zeros (d + 1 - len n) ++ Nat.toDigits 10 n
  if d = 0 then ds else ds.take (ds.length - d) ++ '.' :: ds.drop (ds.length - d)

/-- `{:.d}` of a finite double. -/
def fixed (d : Nat) (x : BitVec 64) : List Char :=
  signText x ++ withFraction d (roundEven (magnitude x * 10 ^ d))

/-- The `p` digits that the host rounds a double to, and their exponent. -/
def hostDigits (p : Nat) (x : BitVec 64) : List Char × Int :=
  if units x = 0 then (List.replicate p '0', 0)
  else
    let c := carried p (roundEven (scaledTo p (magnitude x))) (Int.log 10 (magnitude x))
    (Nat.toDigits 10 c.1, c.2)

/-- `{:.de}` of a finite double. -/
def scientific (d : Nat) (x : BitVec 64) : Scientific :=
  ⟨signText x ++ pointed (hostDigits (d + 1) x).1, (hostDigits (d + 1) x).2⟩

/-! ## §2 The code -/

/-- An argument in the range `low..=high`, cut to a whole number. -/
def digitCount (low high : Nat) (message : String) (d : BitVec 64) : Except String Nat :=
  if IsFinite d ∧ (negative d = false ∨ units d = 0) ∧ low * unitsPerOne ≤ units d ∧
      units d ≤ high * unitsPerOne
  then .ok (trunc d).toNat
  else .error message

/-- `number_to_fixed`; no argument stands for an undefined one too. -/
def numberToFixed (host : ShortestDigits) (n : BitVec 64) (arg : Option (BitVec 64)) :
    Except String (List Char) := do
  let digits ←
    match arg with
    | none => .ok 0
    | some d =>
      digitCount 0 100 "RangeError: toFixed() digits argument must be between 0 and 100" d
  .ok <|
    if IsNaN n then "NaN".toList
    else if ¬ IsFinite n then
      if negative n = false then "Infinity".toList else "-Infinity".toList
    else if 10 ^ 21 * unitsPerOne ≤ units n then numberToString host n
    else fixed digits n

def exponentText (exp : Int) : List Char :=
  (if exp ≥ 0 then '+' else '-') :: Nat.toDigits 10 exp.natAbs

def numberToPrecision (host : ShortestDigits) (n : BitVec 64) (arg : Option (BitVec 64)) :
    Except String (List Char) :=
  match arg with
  | none => .ok (numberToString host n)
  | some p => do
    let p ← digitCount 1 100 "RangeError: toPrecision() argument must be between 1 and 100" p
    .ok <|
      if IsNaN n then "NaN".toList
      else if ¬ IsFinite n then
        if negative n = false then "Infinity".toList else "-Infinity".toList
      else
        let sci := scientific (p - 1) n
        if sci.exp + 1 > p ∨ sci.exp < -6 then sci.mantissa ++ 'e' :: exponentText sci.exp
        else if sci.exp + 1 = p then sci.mantissa.filter (· ≠ '.')
        else fixed (p - 1 - sci.exp).toNat n

def formatScientific (host : ShortestDigits) (n : BitVec 64) (fractionDigits : Option Nat) :
    List Char :=
  let sci :=
    match fractionDigits with
    | some d => scientific d n
    | none => host.lowerExp n
  sci.mantissa ++ 'e' :: exponentText sci.exp

def numberToExponential (host : ShortestDigits) (n : BitVec 64) (arg : Option (BitVec 64)) :
    Except String (List Char) :=
  if IsNaN n then .ok "NaN".toList
  else if ¬ IsFinite n then
    .ok (if negative n = false then "Infinity".toList else "-Infinity".toList)
  else
    match arg with
    | some f => do
      let f ← digitCount 0 100 "RangeError: toExponential() argument must be between 0 and 100" f
      .ok (formatScientific host n (some f))
    | none => .ok (formatScientific host n none)

/-! ## §3 What ECMAScript prescribes -/

def signed (x : BitVec 64) (m : List Char) : List Char :=
  if negative x = true ∧ units x ≠ 0 then '-' :: m else m

/-- The last steps of `toFixed`. -/
def fixedLayout (f n : Nat) : List Char :=
  let m := Nat.toDigits 10 n
  if f = 0 then m
  else
    let m := if m.length ≤ f then List.replicate (f + 1 - m.length) '0' ++ m else m
    m.take (m.length - f) ++ '.' :: m.drop (m.length - f)

inductive ToFixed (x : BitVec 64) (f : Nat) : List Char → Prop
  | large {t : List Char} (h : 10 ^ 21 ≤ magnitude x) (ht : NumberToString x t) : ToFixed x f t
  | small {n : Nat} (h : magnitude x < 10 ^ 21)
      (hn : NearestMultiple (magnitude x) ((10 : ℚ) ^ (-(f : Int))) n) :
      ToFixed x f (signed x (fixedLayout f n))

/-- The `p` digits of a number and their exponent. -/
inductive DigitsOf (x : BitVec 64) (p : Nat) : List Char → Int → Prop
  | zero (h : units x = 0) : DigitsOf x p (List.replicate p '0') 0
  | nonzero {n : Nat} {e : Int} (hne : units x ≠ 0) (h : NearestDigits (magnitude x) p n e) :
      DigitsOf x p (Nat.toDigits 10 n) e

/-- The last steps of `toExponential`. -/
def exponentialLayout (m : List Char) (e : Int) : List Char :=
  let (c, d) := if e = 0 then ('+', ['0']) else (if e > 0 then '+' else '-', Nat.toDigits 10 e.natAbs)
  pointed m ++ 'e' :: c :: d

inductive ToExponential (x : BitVec 64) (f : Nat) : List Char → Prop
  | intro {m : List Char} {e : Int} (h : DigitsOf x (f + 1) m e) :
      ToExponential x f (signed x (exponentialLayout m e))

/-- The last steps of `toPrecision`. -/
def precisionLayout (p : Nat) (m : List Char) (e : Int) : List Char :=
  if e < -6 ∨ e ≥ p then
    pointed m ++ 'e' :: (if e > 0 then '+' else '-') :: Nat.toDigits 10 e.natAbs
  else if e = p - 1 then m
  else if e ≥ 0 then m.take (e + 1).toNat ++ '.' :: m.drop (e + 1).toNat
  else '0' :: '.' :: zeros (-(e + 1)) ++ m

inductive ToPrecision (x : BitVec 64) (p : Nat) : List Char → Prop
  | intro {m : List Char} {e : Int} (h : DigitsOf x p m e) :
      ToPrecision x p (signed x (precisionLayout p m e))

/-! ## §4 The property and its condition -/

inductive Format where
  | fixed
  | exponential
  | precision
  deriving Repr

namespace Format

def Admissible : Format → Nat → Prop
  | .fixed, d | .exponential, d => d ≤ 100
  | .precision, d => 1 ≤ d ∧ d ≤ 100

def text (host : ShortestDigits) : Format → BitVec 64 → Option (BitVec 64) →
    Except String (List Char)
  | .fixed => numberToFixed host
  | .exponential => numberToExponential host
  | .precision => numberToPrecision host

def Prescribed : Format → BitVec 64 → Nat → List Char → Prop
  | .fixed => ToFixed
  | .exponential => ToExponential
  | .precision => ToPrecision

/-- A method's text of a finite number is the one prescribed for the digit count. -/
def Denotes (host : ShortestDigits) (f : Format) (x : BitVec 64) (d : Nat) : Prop :=
  IsFinite x → f.Admissible d →
    ∃ t, f.text host x (some (ofNat d)) = .ok t ∧ f.Prescribed x d t

/-- The number lies half way between an even number of units of the last digit and the next. -/
def LostTie : Format → BitVec 64 → Nat → Prop
  | .fixed, x, d => units x < 10 ^ 21 * unitsPerOne ∧ EvenTie (magnitude x * 10 ^ d)
  | .exponential, x, d => EvenTie (scaledTo (d + 1) (magnitude x))
  | .precision, x, d => EvenTie (scaledTo d (magnitude x))

end Format

end V12.Engine
