/-
V12.Engine.DateFormat — the texts of time values, from
`v12-engine/src/builtins/date.rs`.

`none` is a loop that has not ended or an index past the end; a text of its own
for an invalid date is the inner option.
-/
import V12.Engine.DateParse

namespace V12.DateTime

open Lib.Binary64 Lib.Binary64.Double

/-! ## §1 Numbers -/

/-- `{:0width}`: filled with zeros to a width that counts the sign. -/
def zeroPad (width : Nat) (n : ℤ) : List Char :=
  let digits := Nat.toDigits 10 n.natAbs
  if n < 0 then '-' :: (List.replicate (width - 1 - digits.length) '0' ++ digits)
  else List.replicate (width - digits.length) '0' ++ digits

/-- `format_year_extended`. -/
def formatYearExtended (year : Double) : List Char :=
  let y := year.toI64
  if 0 ≤ y ∧ y ≤ 9999 then zeroPad 4 y
  else if y > 9999 then '+' :: zeroPad 6 y
  else '-' :: zeroPad 6 (-y)

/-- `format_year_plain`. -/
def formatYearPlain (year : Double) : List Char :=
  let y := year.toI64
  if y < 0 then '-' :: zeroPad 4 (-y) else zeroPad 4 y

/-! ## §2 Names -/

/-- `week_day`. -/
def weekDay (t : Double) : Double :=
  let r := ((day t).add (ofInt 4)).rem 7
  if r.lt (ofInt 0) then r.add (ofInt 7) else r

def weekdayName (t : Double) : Option (List Char) := WEEKDAYS[(weekDay t).toI64.toNat]?

def monthName (month : Double) : Option (List Char) := MONTHS[month.toI64.toNat]?

/-! ## §3 Texts -/

def clockText (t : Double) : List Char :=
  zeroPad 2 (hourFromTime t).toI64 ++ ':' :: (zeroPad 2 (minFromTime t).toI64 ++
    ':' :: zeroPad 2 (secFromTime t).toI64)

/-- `to_iso_string`. -/
def toIsoString (turns : Nat) (t : Double) : Option (Option (List Char)) :=
  if t.isFinite then do
    let year ← yearFromTime turns t
    let month ← monthFromTime turns t
    let date ← dateFromTime turns t
    return some (formatYearExtended year ++ '-' :: (zeroPad 2 (month.toI64 + 1) ++
      '-' :: (zeroPad 2 date.toI64 ++ 'T' :: (clockText t ++
        '.' :: (zeroPad 3 (msFromTime t).toI64 ++ ['Z'])))))
  else return none

/-- `date_string`. -/
def dateString (turns : Nat) (t : Double) : Option (Option (List Char)) :=
  if t = .nan then return none
  else do
    let weekday ← weekdayName t
    let month ← monthName (← monthFromTime turns t)
    let date ← dateFromTime turns t
    let year ← yearFromTime turns t
    return some (weekday ++ ' ' :: (month ++ ' ' :: (zeroPad 2 date.toI64 ++
      ' ' :: formatYearPlain year)))

/-- `time_string`. -/
def timeString (t : Double) : List Char :=
  clockText t ++ " GMT+0000 (Coordinated Universal Time)".toList

/-- `format_date_time`. -/
def formatDateTime (turns : Nat) (t : Double) : Option (List Char) := do
  match ← dateString turns t with
  | some ds => return ds ++ ' ' :: timeString t
  | none => return "Invalid Date".toList

/-- The text of `date_proto_to_utc_string`. -/
def utcString (turns : Nat) (t : Double) : Option (List Char) :=
  if t = .nan then return "Invalid Date".toList
  else do
    let weekday ← weekdayName t
    let date ← dateFromTime turns t
    let month ← monthName (← monthFromTime turns t)
    let year ← yearFromTime turns t
    return weekday ++ ',' :: ' ' :: (zeroPad 2 date.toI64 ++ ' ' :: (month ++
      ' ' :: (formatYearPlain year ++ ' ' :: (clockText t ++ " GMT".toList))))

/-! ## §4 The property -/

/-- Every time value is read back from its texts, from two of them without its milliseconds. -/
structure ReadsBack : Prop where
  iso : ∀ t, IsTimeValue t → ∃ enough, ∀ turns ≥ enough, ∃ text,
    toIsoString turns (ofInt t) = some (some text) ∧ parseDate text = .some (ofInt t)
  string : ∀ t, IsTimeValue t → ∃ enough, ∀ turns ≥ enough, ∃ text,
    formatDateTime turns (ofInt t) = some text ∧ parseDate text = .some (ofInt (t - t % 1000))
  utc : ∀ t, IsTimeValue t → ∃ enough, ∀ turns ≥ enough, ∃ text,
    utcString turns (ofInt t) = some text ∧ parseDate text = .some (ofInt (t - t % 1000))

end V12.DateTime
