/-
V12.Engine.JsonGrammar — what ECMA-404 makes of a string, beside what the parser
does.

Numbers and strings are kept as they are written, in a grammar that is too wide:
zeros may lead a number, a point may stand without digits, and a plus sign may
stand among the digits of a `\u` escape. A text of this grammar is one of
ECMA-404 if none of its numbers and strings uses that (`Standard`).
-/
import V12.Engine.JsonParse
import V12.Lib.JsonText

namespace V12.Json

open Lib.JsonText (Units Doc Tokens IsText unit units)
open Lib.Utf16 (IsHigh IsLow encode decode)
open V12.Interp (isDigit digitsValue Digits ExponentPart scaled)

/-! ## §1 Numbers -/

def fractionText : Option (List Char) → List Char
  | none => []
  | some ds => '.' :: ds

/-- A number as it is written. -/
structure Numeral where
  minus : Bool
  whole : List Char
  frac : Option (List Char)
  exp : List Char
  exponent : Int
  whole_digits : Digits 10 whole
  frac_digits : ∀ c ∈ frac.getD [], isDigit 10 c = true
  exp_part : ExponentPart exp exponent

namespace Numeral

def unsigned (n : Numeral) : List Char := n.whole ++ (fractionText n.frac ++ n.exp)

def text (n : Numeral) : List Char := (if n.minus then ['-'] else []) ++ n.unsigned

def value (n : Numeral) : BitVec 64 :=
  scaled n.minus (digitsValue 10 (n.whole ++ n.frac.getD []))
    (n.exponent - (n.frac.getD []).length)

/-- No zero leads, and digits stand behind a point. -/
structure Standard (n : Numeral) : Prop where
  no_leading_zero : n.whole.head? = some '0' → n.whole = ['0']
  digits_behind_point : n.frac ≠ some []

end Numeral

/-! ## §2 Strings -/

/-- The escapes of one character. -/
inductive ShortEscape : Char → Char → Prop
  | quote : ShortEscape '"' '"'
  | backslash : ShortEscape '\\' '\\'
  | slash : ShortEscape '/' '/'
  | backspace : ShortEscape 'b' (Char.ofNat 0x8)
  | formFeed : ShortEscape 'f' (Char.ofNat 0xC)
  | lineFeed : ShortEscape 'n' '\n'
  | carriageReturn : ShortEscape 'r' '\r'
  | tab : ShortEscape 't' '\t'

/-- Four characters behind `\u`, and their code unit. -/
inductive HexEscape : List Char → Nat → Prop
  | digits {ds : List Char} (hlength : ds.length = 4) (hds : ∀ c ∈ ds, isDigit 16 c = true) :
      HexEscape ds (digitsValue 16 ds)
  | plus {ds : List Char} (hlength : ds.length = 3) (hds : ∀ c ∈ ds, isDigit 16 c = true) :
      HexEscape ('+' :: ds) (digitsValue 16 ds)

/-- What stands in a string for itself: all but quotes, backslashes and control characters. -/
structure Plain (u : BitVec 16) : Prop where
  no_control : 0x20 ≤ u.toNat
  no_quote : u ≠ unit '"'
  no_backslash : u ≠ unit '\\'

/-- A code unit of a string as it is written. -/
inductive Piece where
  | raw (u : BitVec 16) (h : Plain u)
  | short (esc c : Char) (h : ShortEscape esc c)
  | hex (ds : List Char) (v : Nat) (h : HexEscape ds v)

namespace Piece

def units : Piece → Units
  | raw u _ => [u]
  | short esc _ _ => [unit '\\', unit esc]
  | hex ds _ _ => unit '\\' :: unit 'u' :: ds.map unit

def code : Piece → BitVec 16
  | raw u _ => u
  | short _ c _ => unit c
  | hex _ v _ => BitVec.ofNat 16 v

def isHex : Piece → Bool
  | hex _ _ _ => true
  | _ => false

def Standard : Piece → Prop
  | hex ds _ _ => ds.head? ≠ some '+'
  | _ => True

end Piece

def codes (ps : List Piece) : List (BitVec 16) := ps.map Piece.code

/-- Surrogates behind `\u` come in pairs, a high one and a low one. -/
def EscapesPaired : List Piece → Prop
  | [] => True
  | [p] => p.isHex = true → ¬ IsHigh p.code ∧ ¬ IsLow p.code
  | p :: q :: ps =>
    if p.isHex = true ∧ IsHigh p.code then
      (q.isHex = true ∧ IsLow q.code) ∧ EscapesPaired ps
    else ¬ (p.isHex = true ∧ IsLow p.code) ∧ EscapesPaired (q :: ps)

/-! ## §3 Documents -/

abbrev Document := Doc Numeral (List Piece)

def tokens : Tokens Numeral (List Piece) where
  number n := units n.text
  string ps := unit '"' :: (ps.flatMap Piece.units ++ [unit '"'])

mutual

/-- The value of a document; `str` reads its strings. A key that comes again gives the property
another value. -/
def toValue (str : List Piece → List (BitVec 16)) : Document → Value
  | .null => .null
  | .bool b => .bool b
  | .number n => .number n.value
  | .string ps => .string (str ps)
  | .array ds => .array (toValues str ds)
  | .object ms => .object (toProps str [] ms)

def toValues (str : List Piece → List (BitVec 16)) : List Document → List Value
  | [] => []
  | d :: ds => toValue str d :: toValues str ds

def toProps (str : List Piece → List (BitVec 16)) : Props → List (List Piece × Document) → Props
  | props, [] => props
  | props, (k, d) :: ms => toProps str (defineJsonProp props (str k) (toValue str d)) ms

end

def denote (d : Document) : Value := toValue codes d

def Standard (d : Document) : Prop := d.All Numeral.Standard fun ps => ∀ p ∈ ps, p.Standard

/-- No `\u` of the document writes an unpaired surrogate. -/
def NoLoneEscape (d : Document) : Prop := d.All (fun _ => True) EscapesPaired

/-- **The string is a JSON text** of ECMA-404, and denotes the value. -/
def Denotes (s : List (BitVec 16)) (v : Value) : Prop :=
  ∃ d, IsText tokens d s ∧ Standard d ∧ denote d = v

/-! ## §4 The property and its condition -/

def WellFormed (s : List (BitVec 16)) : Prop := encode (decode s) = s

mutual

def Value.WellFormed : Value → Prop
  | .null | .bool _ | .number _ => True
  | .string s => Json.WellFormed s
  | .array items => ItemsWellFormed items
  | .object props => PropsWellFormed props

def ItemsWellFormed : List Value → Prop
  | [] => True
  | v :: items => v.WellFormed ∧ ItemsWellFormed items

def PropsWellFormed : Props → Prop
  | [] => True
  | (key, v) :: props => Json.WellFormed key ∧ v.WellFormed ∧ PropsWellFormed props

end

/-- A string is parsed exactly if it is a JSON text, as the value that it denotes, and any other
string is an error. -/
def ParsesAsGrammar (s : List (BitVec 16)) : Prop :=
  (∀ v, jsonParse s = .ok v ↔ Denotes s v) ∧
    ((¬ ∃ v, Denotes s v) → ∃ text, jsonParse s = .error (.message text))

/-- The condition: if the string is a text of the wide grammar, it keeps to ECMA-404 exactly if no
escape writes an unpaired surrogate, and if it does, its value has no unpaired surrogate. -/
def Unaffected (s : List (BitVec 16)) : Prop :=
  ∀ d, IsText tokens d s →
    (Standard d ↔ NoLoneEscape d) ∧ (Standard d → (denote d).WellFormed)

end V12.Json
