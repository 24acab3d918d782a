/-
V12.Interp.StringNumber — `string_to_number` of `v12-interp/src/ops.rs`.

The text of a string is trimmed, a sign is taken off, and the rest is read in
lower case: as an infinity, as digits in a radix, or, if it passes
`valid_decimal`, by the host's parser, which rounds correctly. The grammar of
ECMAScript stands beside it, production by production.
-/
import V12.Lib.Rounding
import Mathlib.Data.List.DropRight

namespace V12.Interp

open Lib.Binary64

/-! ## §1 Digits -/

/-- `char::to_digit`. -/
def toDigit (radix : Nat) (c : Char) : Option Nat :=
  let d :=
    if '0' ≤ c ∧ c ≤ '9' then some (c.toNat - 48)
    else if 'a' ≤ c ∧ c ≤ 'z' then some (c.toNat - 87)
    else if 'A' ≤ c ∧ c ≤ 'Z' then some (c.toNat - 55)
    else none
  d.filter (· < radix)

def digitValue (radix : Nat) (c : Char) : Nat := (toDigit radix c).getD 0

def digitsValue (radix : Nat) (ds : List Char) : Nat :=
  ds.foldl (fun n c => n * radix + digitValue radix c) 0

def isDigit (radix : Nat) (c : Char) : Bool := (toDigit radix c).isSome

/-! ## §2 The code -/

def WS : List (BitVec 16) := [0x9, 0xA, 0xB, 0xC, 0xD, 0x20]

def isWs (u : BitVec 16) : Bool := decide (u ∈ WS)

def trim (units : List (BitVec 16)) : List (BitVec 16) := (units.dropWhile isWs).rdropWhile isWs

def unit (c : Char) : BitVec 16 := BitVec.ofNat 16 c.toNat

def asciiText (units : List (BitVec 16)) : Option (List Char) :=
  units.mapM fun u => if u.toNat < 128 then some (Char.ofNat u.toNat) else none

def parseRadix (digits : List Char) (radix : Nat) : BitVec 64 :=
  if digits = [] ∨ digits.all (isDigit radix) = false then nan
  else digits.foldl (fun acc c => add (mul acc (ofNat radix)) (ofNat (digitValue radix c))) (ofNat 0)

/-- The digits behind a point, if there is one, and what comes after them. -/
def fractionPart (s : List Char) : List Char × List Char :=
  match s with
  | '.' :: rest => (rest.takeWhile (isDigit 10), rest.dropWhile (isDigit 10))
  | s => ([], s)

def validExponent (rest : List Char) : Bool :=
  match rest with
  | [] => true
  | c :: more =>
    if c = 'e' ∨ c = 'E' then
      let digits :=
        match more with
        | '+' :: ds | '-' :: ds => ds
        | ds => ds
      digits.takeWhile (isDigit 10) ≠ [] ∧ digits.dropWhile (isDigit 10) = []
    else false

/-- `valid_decimal`. -/
def validDecimal (s : List Char) : Bool :=
  let whole := s.takeWhile (isDigit 10)
  let (frac, rest) := fractionPart (s.dropWhile (isDigit 10))
  if whole.length + frac.length = 0 then false else validExponent rest

/-- `n · 10^e`, rounded. -/
def scaled (neg : Bool) (n : Nat) (e : Int) : BitVec 64 :=
  if 0 ≤ e then nearest neg (n * 10 ^ e.toNat) 1 else nearest neg n (10 ^ (-e).toNat)

def exponentOf (rest : List Char) : Int :=
  match rest with
  | _ :: '-' :: ds => -(digitsValue 10 ds : Int)
  | _ :: '+' :: ds => digitsValue 10 ds
  | _ :: ds => digitsValue 10 ds
  | [] => 0

/-- The host's parser, on texts of decimal literals: the double nearest to the number. -/
def parseF64 (s : List Char) : BitVec 64 :=
  let whole := s.takeWhile (isDigit 10)
  let (frac, rest) := fractionPart (s.dropWhile (isDigit 10))
  scaled false (digitsValue 10 (whole ++ frac)) (exponentOf rest - frac.length)

/-- The chain of tests on the text in lower case; `none` is the early exit. -/
def magnitude (lower : List Char) : Option (BitVec 64) :=
  if lower = "infinity".toList then some (infinity false)
  else
    match lower with
    | '0' :: 'x' :: hex => some (parseRadix hex 16)
    | '0' :: 'o' :: oct => some (parseRadix oct 8)
    | '0' :: 'b' :: bin => some (parseRadix bin 2)
    | lower => if validDecimal lower then some (parseF64 lower) else none

def splitSign (s : List (BitVec 16)) : Bool × List (BitVec 16) :=
  match s with
  | [] => (false, [])
  | first :: more =>
    if first = unit '+' then (false, more)
    else if first = unit '-' then (true, more)
    else (false, first :: more)

def stringToNumber (units : List (BitVec 16)) : BitVec 64 :=
  let s := trim units
  if s = [] then ofNat 0
  else
    let (negative, rest) := splitSign s
    if rest = [] then nan
    else
      match asciiText rest with
      | none => nan
      | some text =>
        match magnitude (text.map Char.toLower) with
        | none => nan
        | some m => if negative then neg m else m

/-! ## §3 The grammar -/

def Digits (radix : Nat) (ds : List Char) : Prop := ds ≠ [] ∧ ∀ c ∈ ds, isDigit radix c = true

/-- `ExponentPart`, if there is one, with its exponent. -/
inductive ExponentPart : List Char → Int → Prop
  | absent : ExponentPart [] 0
  | plain {c : Char} {ds : List Char} (hc : c = 'e' ∨ c = 'E') (hds : Digits 10 ds) :
      ExponentPart (c :: ds) (digitsValue 10 ds)
  | plus {c : Char} {ds : List Char} (hc : c = 'e' ∨ c = 'E') (hds : Digits 10 ds) :
      ExponentPart (c :: '+' :: ds) (digitsValue 10 ds)
  | minus {c : Char} {ds : List Char} (hc : c = 'e' ∨ c = 'E') (hds : Digits 10 ds) :
      ExponentPart (c :: '-' :: ds) (-(digitsValue 10 ds : Int))

/-- The number of a literal without its sign. -/
inductive Magnitude where
  | infinite
  /-- `n · 10^e`. -/
  | decimal (n : Nat) (e : Int)

def Magnitude.number (neg : Bool) : Magnitude → BitVec 64
  | .infinite => infinity neg
  | .decimal n e => scaled neg n e

/-- `StrUnsignedDecimalLiteral`. -/
inductive StrUnsignedDecimalLiteral : List Char → Magnitude → Prop
  | infinity : StrUnsignedDecimalLiteral "Infinity".toList .infinite
  | point {whole frac exp : List Char} {e : Int} (hwhole : Digits 10 whole)
      (hfrac : frac = [] ∨ Digits 10 frac) (hexp : ExponentPart exp e) :
      StrUnsignedDecimalLiteral (whole ++ '.' :: frac ++ exp)
        (.decimal (digitsValue 10 (whole ++ frac)) (e - frac.length))
  | frac {frac exp : List Char} {e : Int} (hfrac : Digits 10 frac) (hexp : ExponentPart exp e) :
      StrUnsignedDecimalLiteral ('.' :: frac ++ exp)
        (.decimal (digitsValue 10 frac) (e - frac.length))
  | whole {whole exp : List Char} {e : Int} (hwhole : Digits 10 whole)
      (hexp : ExponentPart exp e) :
      StrUnsignedDecimalLiteral (whole ++ exp) (.decimal (digitsValue 10 whole) e)

/-- The letters of a radix. -/
inductive RadixLetter : Char → Nat → Prop
  | hex : RadixLetter 'x' 16
  | upperHex : RadixLetter 'X' 16
  | octal : RadixLetter 'o' 8
  | upperOctal : RadixLetter 'O' 8
  | binary : RadixLetter 'b' 2
  | upperBinary : RadixLetter 'B' 2

/-- `NonDecimalIntegerLiteral`, with its radix and its digits. -/
inductive NonDecimalIntegerLiteral : List Char → Nat → List Char → Prop
  | intro {letter : Char} {radix : Nat} {ds : List Char} (hletter : RadixLetter letter radix)
      (hds : Digits radix ds) : NonDecimalIntegerLiteral ('0' :: letter :: ds) radix ds

/-- `StrNumericLiteral`, with its sign. -/
inductive StrNumericLiteral : List Char → Bool → Magnitude → Prop
  | unsigned {t : List Char} {m : Magnitude} (h : StrUnsignedDecimalLiteral t m) :
      StrNumericLiteral t false m
  | plus {t : List Char} {m : Magnitude} (h : StrUnsignedDecimalLiteral t m) :
      StrNumericLiteral ('+' :: t) false m
  | minus {t : List Char} {m : Magnitude} (h : StrUnsignedDecimalLiteral t m) :
      StrNumericLiteral ('-' :: t) true m
  | radix {t : List Char} {radix : Nat} {ds : List Char}
      (h : NonDecimalIntegerLiteral t radix ds) :
      StrNumericLiteral t false (.decimal (digitsValue radix ds) 0)

def Surrounded (blank : BitVec 16 → Bool) (s : List (BitVec 16)) (t : List Char) : Prop :=
  ∃ lead trail, (∀ u ∈ lead, blank u = true) ∧ (∀ u ∈ trail, blank u = true) ∧
    s = lead ++ t.map unit ++ trail

/-- **`StringNumericLiteral`**, with its number; `blank` is the white space. -/
inductive StringNumericLiteral (blank : BitVec 16 → Bool) :
    List (BitVec 16) → BitVec 64 → Prop
  | blank {s : List (BitVec 16)} (h : ∀ u ∈ s, blank u = true) : StringNumericLiteral blank s (ofNat 0)
  | literal {s : List (BitVec 16)} {t : List Char} {negative : Bool} {m : Magnitude}
      (hs : Surrounded blank s t) (h : StrNumericLiteral t negative m) :
      StringNumericLiteral blank s (m.number negative)

/-! ## §4 The property and its condition -/

/-- A string that is a literal is read as its number, and any other as a NaN. -/
def ReadsLiteral (s : List (BitVec 16)) : Prop :=
  (∀ v, StringNumericLiteral isWs s v → stringToNumber s = v) ∧
    ((¬ ∃ v, StringNumericLiteral isWs s v) → IsNaN (stringToNumber s))

def MaybeSigned (t word : List Char) : Prop := t = word ∨ t = '+' :: word ∨ t = '-' :: word

/-- `Infinity` in another spelling. -/
def Misspelled (s : List (BitVec 16)) : Prop :=
  ∃ t word, Surrounded isWs s t ∧ MaybeSigned t word ∧
    word.map Char.toLower = "infinity".toList ∧ word ≠ "Infinity".toList

def SignedRadix (s : List (BitVec 16)) : Prop :=
  ∃ t sign radix ds, Surrounded isWs s (sign :: t) ∧ (sign = '+' ∨ sign = '-') ∧
    NonDecimalIntegerLiteral t radix ds

/-- The first digits that do not fit 53 bits end in an exact tie, which is rounded down to an even
number, and later digits put the whole above the tie. -/
def Misrounded (radix : Nat) (ds : List Char) : Prop :=
  ∃ head tail, ds = head ++ tail ∧
    2 ^ 53 ≤ digitsValue radix head ∧ digitsValue radix head.dropLast < 2 ^ 53 ∧
    digitsValue radix head % 2 ^ excess (digitsValue radix head) =
      2 ^ (excess (digitsValue radix head) - 1) ∧
    digitsValue radix head / 2 ^ excess (digitsValue radix head) % 2 = 0 ∧
    0 < digitsValue radix tail ∧ digitsValue radix ds < 2 ^ 1024

/-- The string is a literal with a radix whose digits are rounded twice. -/
def TwiceRounded (s : List (BitVec 16)) : Prop :=
  ∃ t radix ds, Surrounded isWs s t ∧ NonDecimalIntegerLiteral t radix ds ∧ Misrounded radix ds

end V12.Interp
