/-
V12.Engine.DateParse — `parse_date` and its helpers, from
`v12-engine/src/builtins/date.rs`.

The ES format is read byte by byte, with slices at byte offsets; the fallback
reads words. A slice that is none is a panic (`Outcome.panic`). Years and other
numbers of a few digits are whole numbers here where the source has doubles.
-/
import V12.Engine.DateTime
import V12.Interp.StringNumber
import V12.Lib.StrSlice

namespace V12.DateTime

open Lib.Binary64 Lib.Binary64.Double Lib.Utf8 V12.Interp

/-! ## §1 Outcomes -/

/-- What a function that returns an `Option` can do. -/
inductive Outcome (α : Type) where
  | panic
  | none
  | some (a : α)
  deriving DecidableEq

namespace Outcome

variable {α β : Type}

def bind (x : Outcome α) (f : α → Outcome β) : Outcome β :=
  match x with
  | panic => panic
  | none => none
  | some a => f a

instance : Monad Outcome where
  pure := some
  bind := bind

def ofSlice : Option α → Outcome α
  | .some a => some a
  | .none => panic

/-- `?` on an `Option`. -/
def ofOption : Option α → Outcome α
  | .some a => some a
  | .none => none

/-- An early `return None`. -/
def guard (test : Bool) : Outcome Unit := if test then some () else none

end Outcome

/-! ## §2 The host's parsers -/

def takeSign : List Char → Bool × List Char
  | '-' :: rest => (true, rest)
  | '+' :: rest => (false, rest)
  | rest => (false, rest)

/-- `str::parse::<f64>`. -/
def parseFloat (s : List Char) : Option Double :=
  let (negative, rest) := takeSign s
  let signed (x : Double) : Double := if negative then x.neg else x
  let lower := rest.map Char.toLower
  if lower = "inf".toList ∨ lower = "infinity".toList then some (signed (.infinite false))
  else if lower = "nan".toList then some .nan
  else if validDecimal rest then
    let x := parseF64 rest
    some (signed (if IsFinite x then .finite (value x) else .infinite false))
  else none

def parseInteger (s : List Char) : Option Int :=
  let (negative, digits) := takeSign s
  if digits = [] ∨ digits.all (isDigit 10) = false then none
  else some (if negative then -(digitsValue 10 digits : Int) else digitsValue 10 digits)

/-- `str::parse::<i64>`. -/
def parseI64 (s : List Char) : Option Int :=
  (parseInteger s).filter fun n => -2 ^ 63 ≤ n ∧ n ≤ 2 ^ 63 - 1

/-- `str::parse::<u32>`; a minus sign is refused. -/
def parseU32 (s : List Char) : Option Nat :=
  if s.head? = some '-' then none
  else ((parseInteger s).filter fun n => 0 ≤ n ∧ n < 2 ^ 32).map Int.toNat

/-- `char::is_whitespace`. -/
def isWhitespace (c : Char) : Bool :=
  let n := c.toNat
  (9 ≤ n && n ≤ 13) || n == 0x20 || n == 0x85 || n == 0xA0 || n == 0x1680 ||
    (0x2000 ≤ n && n ≤ 0x200A) || n == 0x2028 || n == 0x2029 || n == 0x202F || n == 0x205F ||
    n == 0x3000

/-- `str::trim`. -/
def trimText (s : List Char) : List Char := (s.dropWhile isWhitespace).rdropWhile isWhitespace

/-- `split_whitespace`. -/
def splitWhitespace (s : List Char) : List (List Char) :=
  (s.splitOnP isWhitespace).filter fun w => w ≠ []

/-- `trim_end_matches(',')`. -/
def trimCommas (s : List Char) : List Char := s.rdropWhile (· = ',')

/-! ## §3 The ES format -/

/-- `bytes.get(i)`. -/
def byteAt (s : List Char) (i : Nat) : Option Nat := (bytes s)[i]?

def isByte (s : List Char) (i : Nat) (c : Char) : Bool := byteAt s i = some c.toNat

/-- The bytes from `a` to `b` are there, and are digits. -/
def areDigits (s : List Char) (a b : Nat) : Bool :=
  b ≤ (bytes s).length && (((bytes s).take b).drop a).all asciiDigit

/-- `parse_fixed`. -/
def parseFixed (s : List Char) (i len : Nat) : Outcome Nat := do
  Outcome.guard (areDigits s i (i + len))
  let digits ← .ofSlice (slice s i (i + len))
  .ofOption (parseU32 digits)

/-- The year of `parse_iso`, and the offset behind it. -/
def isoYear (s : List Char) : Outcome (Int × Nat) :=
  if isByte s 0 '+' || isByte s 0 '-' then do
    Outcome.guard (areDigits s 1 7)
    let digits ← .ofSlice (slice s 1 7)
    let y ← .ofOption (parseI64 digits)
    Outcome.guard (!(isByte s 0 '-' && y = 0))
    return (if isByte s 0 '-' then -y else y, 7)
  else do
    Outcome.guard (areDigits s 0 4)
    let digits ← .ofSlice (slice s 0 4)
    let y ← .ofOption (parseI64 digits)
    return (y, 4)

def isoDay (s : List Char) (i : Nat) : Outcome (Nat × Nat) :=
  if isByte s i '-' then do
    let d ← parseFixed s (i + 1) 2
    Outcome.guard (1 ≤ d && d ≤ 31)
    return (d, i + 3)
  else return (1, i)

def isoDate (s : List Char) (i : Nat) : Outcome (Nat × Nat × Nat) :=
  if isByte s i '-' then do
    let m ← parseFixed s (i + 1) 2
    Outcome.guard (1 ≤ m && m ≤ 12)
    let (d, i) ← isoDay s (i + 3)
    return (m, d, i)
  else return (1, 1, i)

def digitRun (s : List Char) (i : Nat) : Nat := (((bytes s).drop i).takeWhile asciiDigit).length

/-- The milliseconds: three digits of the fraction, filled up with zeros. -/
def isoFraction (s : List Char) (i : Nat) : Outcome (Double × Nat) :=
  if isByte s i '.' then do
    let stop := i + 1 + digitRun s (i + 1)
    let frac ← .ofSlice (slice s (i + 1) stop)
    Outcome.guard (frac ≠ [])
    let ms ← .ofOption (parseFloat ((frac ++ List.replicate (3 - frac.length) '0').take 3))
    return (ms, stop)
  else return (ofInt 0, i)

def isoSecond (s : List Char) (i : Nat) : Outcome (Nat × Double × Nat) :=
  if isByte s i ':' then do
    let second ← parseFixed s (i + 1) 2
    Outcome.guard (second ≤ 59)
    let (ms, i) ← isoFraction s (i + 3)
    return (second, ms, i)
  else return (0, ofInt 0, i)

structure Clock where
  hour : Nat
  minute : Nat
  second : Nat
  ms : Double

def isoTime (s : List Char) (i : Nat) : Outcome (Clock × Nat) :=
  if isByte s i 'T' || isByte s i 't' || isByte s i ' ' then do
    let hour ← parseFixed s (i + 1) 2
    Outcome.guard (hour ≤ 24 && isByte s (i + 3) ':')
    let minute ← parseFixed s (i + 4) 2
    Outcome.guard (minute ≤ 59)
    let (second, ms, i) ← isoSecond s (i + 6)
    return (⟨hour, minute, second, ms⟩, i)
  else return (⟨0, 0, 0, ofInt 0⟩, i)

def isoZone (s : List Char) (i : Nat) : Outcome (Int × Nat) :=
  if isByte s i 'Z' || isByte s i 'z' then return (0, i + 1)
  else if isByte s i '+' || isByte s i '-' then do
    let oh ← parseFixed s (i + 1) 2
    Outcome.guard (isByte s (i + 3) ':')
    let om ← parseFixed s (i + 4) 2
    Outcome.guard (oh ≤ 23 && om ≤ 59)
    return ((if isByte s i '-' then -1 else 1) * (oh * 60 + om : Int), i + 6)
  else return (0, i)

def isoRest (s : List Char) (i : Nat) : Outcome (Clock × Int) :=
  if i = (bytes s).length then return (⟨0, 0, 0, ofInt 0⟩, 0)
  else do
    let (clock, i) ← isoTime s i
    let (offset, i) ← isoZone s i
    Outcome.guard (i = (bytes s).length)
    return (clock, offset)

/-- `time_clip`. -/
def timeClip (t : Double) : Double :=
  match t with
  | .finite q => if |q| ≤ 8640000000000000 then t.trunc else .nan
  | _ => .nan

/-- `parse_iso`. -/
def parseIso (s : List Char) : Outcome Double := do
  let (year, i) ← isoYear s
  let (month, day, i) ← isoDate s i
  let (clock, offset) ← isoRest s i
  Outcome.guard (!(clock.hour = 24 && (clock.minute ≠ 0 || clock.second ≠ 0 || clock.ms ≠ ofInt 0)))
  let t := (makeDate (makeDay (ofInt year) (ofInt (month - 1)) (ofInt day))
    (makeTime (ofInt clock.hour) (ofInt clock.minute) (ofInt clock.second) clock.ms)).sub
      (ofRat (offset * msPerMinute))
  return timeClip t

/-! ## §4 The fallback -/

def WEEKDAYS : List (List Char) :=
  ["Sun".toList, "Mon".toList, "Tue".toList, "Wed".toList, "Thu".toList, "Fri".toList, "Sat".toList]

def MONTHS : List (List Char) :=
  ["Jan".toList, "Feb".toList, "Mar".toList, "Apr".toList, "May".toList, "Jun".toList, "Jul".toList,
    "Aug".toList, "Sep".toList, "Oct".toList, "Nov".toList, "Dec".toList]

/-- `to_ascii_lowercase` of each character, by which `eq_ignore_ascii_case` compares. -/
def asciiLower (s : List Char) : List Char :=
  s.map fun c => if 'A' ≤ c ∧ c ≤ 'Z' then Char.ofNat (c.toNat + 32) else c

/-- The first three bytes of a word, and whether there are so many. -/
def firstThree (w : List Char) : Outcome (Option (List Char)) :=
  if (bytes w).length ≥ 3 then do
    let three ← .ofSlice (slice w 0 3)
    return some three
  else return none

def isWeekday (w : List Char) : Outcome Bool := do
  let three ← firstThree (trimCommas w)
  return three.any (· ∈ WEEKDAYS)

/-- `month_index`. -/
def monthIndex (w : List Char) : Outcome (Option Nat) := do
  let three ← firstThree w
  return three.bind fun t => MONTHS.findIdx? fun m => asciiLower m = asciiLower t

/-- `parse_hms`. -/
def parseHms (w : List Char) : Option (Double × Double × Double) :=
  match w.splitOn ':' with
  | h :: m :: rest => do
    let h ← parseFloat h
    let m ← parseFloat m
    match rest with
    | [] => return (h, m, ofInt 0)
    | sec :: _ => return (h, m, ← parseFloat sec)
  | _ => none

/-- `parse_offset_token`; its slices are of four ASCII digits. -/
def parseOffsetToken (w : List Char) : Option Int :=
  let t := ((w.dropPrefix? "GMT".toList).or (w.dropPrefix? "UTC".toList)).getD w
  let digitsOf (rest : List Char) : Option Int :=
    let digits := rest.filter Char.isDigit
    if digits.length = 4 then
      some (digitsValue 10 (digits.take 2) * 60 + digitsValue 10 (digits.drop 2))
    else none
  match t with
  | '+' :: rest => digitsOf rest
  | '-' :: rest => (digitsOf rest).map Neg.neg
  | _ => none

def skipWeekday : List (List Char) → Outcome (List (List Char))
  | [] => return []
  | tok :: tokens => do
    let weekday ← isWeekday tok
    return if weekday then tokens else tok :: tokens

def dayMonth (tokens : List (List Char)) : Outcome (Double × Nat × List (List Char)) := do
  let first ← .ofOption tokens.head?
  match ← monthIndex first with
  | .some month =>
    let tok ← .ofOption tokens[1]?
    let day ← .ofOption (parseFloat (trimCommas tok))
    return (day, month, tokens.drop 2)
  | .none =>
    let day ← .ofOption (parseFloat (trimCommas first))
    let tok ← .ofOption tokens[1]?
    let month ← monthIndex tok
    return (day, ← .ofOption month, tokens.drop 2)

/-- The time of day behind the year, 0 without one, and the words behind it. -/
def timeOfDay (rest : List (List Char)) : (Double × Double × Double) × List (List Char) :=
  match rest.head?.bind parseHms with
  | some hms => (hms, rest.drop 1)
  | none => ((ofInt 0, ofInt 0, ofInt 0), rest)

def isZoneName (w : List Char) : Bool :=
  asciiLower w = asciiLower "GMT".toList || asciiLower w = asciiLower "UTC".toList

def zoneOffset (rest : List (List Char)) : Int :=
  rest.foldl (fun offset w => if isZoneName w then offset else (parseOffsetToken w).getD offset) 0

/-- `parse_fallback`; `none` is NaN. -/
def parseFallback (s : List Char) : Outcome Double := do
  let tokens ← skipWeekday (splitWhitespace s)
  let (day, month, rest) ← dayMonth tokens
  let tok ← .ofOption rest.head?
  let year ← .ofOption (parseI64 (trimCommas tok))
  let ((hour, minute, second), rest) := timeOfDay (rest.drop 1)
  let t := (makeDate (makeDay (ofRat year) (ofInt month) day)
    (makeTime hour minute second (ofInt 0))).sub (ofRat (zoneOffset rest * msPerMinute))
  return timeClip t

/-- `parse_date`; `none` is NaN. -/
def parseDate (text : List Char) : Outcome Double :=
  let s := trimText text
  if s = [] then .none
  else
    match parseIso s with
    | .none => parseFallback s
    | outcome => outcome

end V12.DateTime
