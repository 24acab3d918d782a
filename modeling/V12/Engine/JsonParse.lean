/-
V12.Engine.JsonParse — the parser of `JSON.parse`, from
`v12-engine/src/builtins/json.rs`.

The parser walks over the UTF-8 bytes of its text; here it has the bytes from its
position on, and the position, which only errors name, is what is missing from
the length. The recursion counts its steps, and `Failure.steps` is when there are
too few of them.
-/
import V12.Interp.StringNumber
import V12.Lib.StrSlice

namespace V12.Json

open Lib.Utf8 Lib.Utf16
open V12.Interp (isDigit digitsValue validDecimal parseF64)

/-! ## §1 Values -/

/-- What a text is read as. A number is its double: a Smi stands for one. The properties of an
object are in the order of their creation. -/
inductive Value where
  | null
  | bool (b : Bool)
  | number (n : BitVec 64)
  | string (s : List (BitVec 16))
  | array (items : List Value)
  | object (props : List (List (BitVec 16) × Value))

abbrev Props := List (List (BitVec 16) × Value)

/-- `define_json_prop`: a key that is there keeps its place. -/
def defineJsonProp : Props → List (BitVec 16) → Value → Props
  | [], name, value => [(name, value)]
  | (key, old) :: props, name, value =>
    if key = name then (key, value) :: props else (key, old) :: defineJsonProp props name value

/-- `js_number`: a whole number becomes a Smi, and there is no negative zero among those. -/
def jsNumber (n : BitVec 64) : BitVec 64 :=
  if Lib.Binary64.units n = 0 then Lib.Binary64.ofNat 0 else n

/-! ## §2 The host -/

/-- `char::from_u32`. -/
def fromU32 (n : Nat) : Option Char := if n.isValidChar then some (Char.ofNat n) else none

def dropPlus : List Char → List Char
  | '+' :: d :: ds => d :: ds
  | s => s

/-- `u16::from_str_radix(s, 16)`; a plus sign may stand in front. -/
def fromStrRadix16 (s : List Char) : Option Nat :=
  let digits := dropPlus s
  if digits = [] ∨ digits.all (isDigit 16) = false then none
  else some (digitsValue 16 digits) |>.filter (· < 65536)

/-- Whether there is a minus sign, and what is behind a sign. -/
def splitSign : List Char → Bool × List Char
  | '-' :: rest => (true, rest)
  | '+' :: rest => (false, rest)
  | rest => (false, rest)

/-- `str::parse::<f64>`. -/
def parseFloat (s : List Char) : Option (BitVec 64) :=
  let (negative, rest) := splitSign s
  let signed (x : BitVec 64) : BitVec 64 := if negative then Lib.Binary64.neg x else x
  let lower := rest.map Char.toLower
  if lower = "inf".toList ∨ lower = "infinity".toList then
    some (signed (Lib.Binary64.infinity false))
  else if lower = "nan".toList then some Lib.Binary64.nan
  else if validDecimal rest then some (signed (parseF64 rest))
  else none

/-! ## §3 The parser -/

/-- What stops a parse: the text of an error. -/
inductive Failure where
  | steps
  | message (text : String)

abbrev Reads := Except Failure

def byte (c : Char) : Nat := c.toNat

/-- `pos`, in a text of `len` bytes. -/
def position (len : Nat) (rest : List Nat) : Nat := len - rest.length

def isWs (b : Nat) : Bool := b = byte ' ' || b = byte '\t' || b = byte '\n' || b = byte '\r'

def ws (rest : List Nat) : List Nat := rest.dropWhile isWs

def unexpectedToken (len : Nat) (rest : List Nat) : Failure :=
  .message s!"Unexpected token at position {position len rest}"

def expect (len b : Nat) (rest : List Nat) : Reads (List Nat) :=
  if rest.head? = some b then .ok rest.tail
  else .error (.message s!"Unexpected character at position {position len rest}")

def literal (len : Nat) (word : List Char) (value : Value) (rest : List Nat) :
    Reads (Value × List Nat) :=
  if bytes word <+: rest then .ok (value, rest.drop (bytes word).length)
  else .error (unexpectedToken len rest)

def escapes : List (Char × Char) :=
  [('"', '"'), ('\\', '\\'), ('/', '/'), ('b', Char.ofNat 0x8), ('f', Char.ofNat 0xC), ('n', '\n'),
    ('r', '\r'), ('t', '\t')]

def escapeChar (esc : Nat) : Option Char :=
  (escapes.find? fun e => byte e.1 = esc).map Prod.snd

def hexUnit (hex : List Nat) : Option Nat := (fromUtf8 hex).bind fromStrRadix16

def lowEscape (rest : List Nat) : Option Nat :=
  if rest[0]? = some (byte '\\') ∧ rest[1]? = some (byte 'u') then
    let hex2 := if 6 ≤ rest.length then (rest.drop 2).take 4 else []
    (hexUnit hex2).filter fun l => 0xDC00 ≤ l ∧ l < 0xE000
  else none

def joinPair (units low : Nat) : Nat := 0x10000 + (units - 0xD800) * 0x400 + (low - 0xDC00)

/-- `ok_or`, with the bytes behind the character. -/
def okOr (c : Option Char) (text : String) (rest : List Nat) : Reads (Char × List Nat) :=
  match c with
  | some c => .ok (c, rest)
  | none => .error (.message text)

/-- The character of a code unit, with the second half of its pair if that comes next. -/
def reassemble (units : Nat) (low : Option Nat) (rest : List Nat) : Reads (Char × List Nat) :=
  match low with
  | some low => okOr (fromU32 (joinPair units low)) "Invalid code point" (rest.drop 6)
  | none => okOr (fromU32 units) "Lone surrogate" rest

/-- The escape behind `\u`. -/
def unicodeEscape (rest : List Nat) : Reads (Char × List Nat) :=
  if rest.length < 4 then .error (.message "Truncated \\u escape")
  else
    match hexUnit (rest.take 4) with
    | none => .error (.message "Invalid \\u escape")
    | some units =>
      reassemble units (if 0xD800 ≤ units ∧ units < 0xDC00 then lowEscape (rest.drop 4) else none)
        (rest.drop 4)

/-- The loop of `string`. -/
def stringLoop (len : Nat) : Nat → List Char → List Nat → Reads (List Char × List Nat)
  | 0, _, _ => .error .steps
  | _ + 1, _, [] => .error (.message "Unterminated string")
  | fuel + 1, out, b :: rest =>
    if b = byte '"' then .ok (out, rest)
    else if b = byte '\\' then
      match rest with
      | [] => .error (.message "Unterminated escape")
      | esc :: rest =>
        if esc = byte 'u' then
          match unicodeEscape rest with
          | .ok (c, rest) => stringLoop len fuel (out ++ [c]) rest
          | .error e => .error e
        else
          match escapeChar esc with
          | some c => stringLoop len fuel (out ++ [c]) rest
          | none => .error (.message "Invalid escape")
    else
      match fromUtf8 (b :: rest) with
      | some (c :: _) =>
        if c.toNat < 0x20 then
          .error (.message s!"Unexpected control character at position {position len (b :: rest)}")
        else stringLoop len fuel (out ++ [c]) ((b :: rest).drop (size c))
      | _ => .error (.message "Invalid UTF-8")

def string (len : Nat) (rest : List Nat) : Reads (List Char × List Nat) := do
  let rest ← expect len (byte '"') rest
  stringLoop len (rest.length + 1) [] rest

def skipFraction (rest : List Nat) : List Nat :=
  if rest.head? = some (byte '.') then rest.tail.dropWhile asciiDigit else rest

/-- An exponent, if there is one; its digits may be missing. -/
def skipExponent (rest : List Nat) : List Nat :=
  if rest.head? = some (byte 'e') ∨ rest.head? = some (byte 'E') then
    let rest := rest.tail
    let rest :=
      if rest.head? = some (byte '+') ∨ rest.head? = some (byte '-') then rest.tail else rest
    rest.dropWhile asciiDigit
  else rest

def number (rest : List Nat) : Reads (Value × List Nat) :=
  let unsigned := if rest.head? = some (byte '-') then rest.tail else rest
  let fraction := unsigned.dropWhile asciiDigit
  if fraction.length = unsigned.length then .error (.message "Invalid number")
  else
    let behind := skipExponent (skipFraction fraction)
    match fromUtf8 (rest.take (rest.length - behind.length)) with
    | none => .error (.message "Invalid number")
    | some text =>
      match parseFloat text with
      | none => .error (.message "Invalid number")
      | some n =>
        -- the sign of a zero would be lost in a Smi
        if Lib.Binary64.units n = 0 ∧ text.head? = some '-' then
          .ok (.number (Lib.Binary64.neg (Lib.Binary64.ofNat 0)), behind)
        else .ok (.number (jsNumber n), behind)

/-- `object`, with its loop over members. -/
def object (loop : Props → List Nat → Reads (Value × List Nat)) (len : Nat) (rest : List Nat) :
    Reads (Value × List Nat) := do
  let rest ← expect len (byte '\x7b') rest
  let rest := ws rest
  if rest.head? = some (byte '\x7d') then return (.object [], rest.tail) else loop [] rest

/-- `array`, with its loop over elements. -/
def array (loop : List Value → List Nat → Reads (Value × List Nat)) (len : Nat)
    (rest : List Nat) : Reads (Value × List Nat) := do
  let rest ← expect len (byte '[') rest
  let rest := ws rest
  if rest.head? = some (byte ']') then return (.array [], rest.tail) else loop [] rest

mutual

def value (len : Nat) : Nat → List Nat → Reads (Value × List Nat)
  | 0, _ => .error .steps
  | fuel + 1, rest =>
    let rest := ws rest
    match rest.head? with
    | none => .error (unexpectedToken len rest)
    | some c =>
      if c = byte '\x7b' then object (members len fuel) len rest
      else if c = byte '[' then array (elements len fuel) len rest
      else if c = byte '"' then do
        let (s, rest) ← string len rest
        return (.string (encode s), rest)
      else if c = byte 't' then literal len "true".toList (.bool true) rest
      else if c = byte 'f' then literal len "false".toList (.bool false) rest
      else if c = byte 'n' then literal len "null".toList .null rest
      else if c = byte '-' ∨ asciiDigit c = true then number rest
      else .error (unexpectedToken len rest)

/-- The loop of `object`. -/
def members (len : Nat) : Nat → Props → List Nat → Reads (Value × List Nat)
  | 0, _, _ => .error .steps
  | fuel + 1, props, rest => do
    let (key, rest) ← string len (ws rest)
    let rest ← expect len (byte ':') (ws rest)
    let (v, rest) ← value len fuel rest
    let props := defineJsonProp props (encode key) v
    let rest := ws rest
    if rest.head? = some (byte ',') then members len fuel props rest.tail
    else if rest.head? = some (byte '\x7d') then return (.object props, rest.tail)
    else throw (.message s!"Expected ',' or '\x7d' at position {position len rest}")

/-- The loop of `array`. -/
def elements (len : Nat) : Nat → List Value → List Nat → Reads (Value × List Nat)
  | 0, _, _ => .error .steps
  | fuel + 1, items, rest => do
    let (v, rest) ← value len fuel rest
    let items := items ++ [v]
    let rest := ws rest
    if rest.head? = some (byte ',') then elements len fuel items rest.tail
    else if rest.head? = some (byte ']') then return (.array items, rest.tail)
    else throw (.message s!"Expected ',' or ']' at position {position len rest}")

end

/-- `json_parse` of a string. Unpaired surrogates of the string are lost in its text; the Latin-1
strings of the heap are ASCII. -/
def jsonParse (s : List (BitVec 16)) : Reads Value := do
  let chars := bytes (decode s)
  let (result, rest) ← value chars.length (2 * chars.length + 2) chars
  let rest := ws rest
  if rest = [] then return result else throw (unexpectedToken chars.length rest)

end V12.Json
