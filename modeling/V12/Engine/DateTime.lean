/-
V12.Engine.DateTime — time values and their fields, from
`v12-engine/src/builtins/date.rs`.

The source computes with doubles, and finds the year in 64-bit integers by an
estimate and a loop that corrects it. The loop is given a number of turns here;
`none` is a loop that is still running after them. The integers are unbounded.
-/
import V12.Lib.DoubleValue

namespace V12.DateTime

open Lib.Binary64 Lib.Binary64.Double

/-! ## §1 Constants -/

def msPerDay : ℚ := 86400000

def msPerHour : ℚ := 3600000

def msPerMinute : ℚ := 60000

def msPerSecond : ℚ := 1000

/-! ## §2 Days and years -/

/-- `day`. -/
def day (t : Double) : Double := (t.quot msPerDay).floor

/-- `time_within_day`. -/
def timeWithinDay (t : Double) : Double :=
  let r := t.rem msPerDay
  if r.lt (ofInt 0) then r.add (.finite msPerDay) else r

/-- `day_from_year`. -/
def dayFromYear (y : Double) : Double :=
  ((((y.sub (ofInt 1970)).scale 365).add ((y.sub (ofInt 1969)).quot 4).floor).sub
    ((y.sub (ofInt 1901)).quot 100).floor).add ((y.sub (ofInt 1601)).quot 400).floor

/-- `is_leap`. -/
def isLeap (y : ℤ) : Bool := (y.tmod 4 = 0 && y.tmod 100 ≠ 0) || y.tmod 400 = 0

/-- `div_floor`. -/
def divFloor (a b : ℤ) : ℤ :=
  if a.tmod b ≠ 0 ∧ decide (a < 0) ≠ decide (b < 0) then a.tdiv b - 1 else a.tdiv b

/-- `days_from_epoch_to_year`. -/
def daysFromEpochToYear (y : ℤ) : ℤ :=
  let d := y - 1970
  365 * d + (divFloor (d + 1) 4 - divFloor (d + 69) 100 + divFloor (d + 369) 400)

/-- The loop of `year_from_time`, for so many turns. -/
def yearLoop (d : Double) : Nat → ℤ → Option ℤ
  | 0, _ => none
  | turns + 1, y =>
    if d.lt (ofRat (daysFromEpochToYear y)) then yearLoop d turns (y - 1)
    else if (ofRat (daysFromEpochToYear (y + 1))).le d then yearLoop d turns (y + 1)
    else some y

def yearEstimate (d : Double) : ℤ := (d.quot (roundRat 365.2425)).floor.toI64 + 1970

/-- `year_from_time`. -/
def yearFromTime (turns : Nat) (t : Double) : Option Double :=
  (yearLoop (day t) turns (yearEstimate (day t))).map fun y : ℤ => ofRat y

/-- `in_leap_year`. -/
def inLeapYear (turns : Nat) (t : Double) : Option Double := do
  return if isLeap (← yearFromTime turns t).toI64 then ofInt 1 else ofInt 0

/-- `day_within_year`. -/
def dayWithinYear (turns : Nat) (t : Double) : Option Double := do
  return (day t).sub (dayFromYear (← yearFromTime turns t))

/-! ## §3 Months -/

def monthStarts : List ℤ := [0, 31, 59, 90, 120, 151, 181, 212, 243, 273, 304, 334, 365]

/-- `MONTH_STARTS[m]`; no index is past the end. -/
def monthStart (m : Nat) : Double := ofInt (monthStarts.getD m 0)

/-- `month_start_day`. -/
def monthStartDay (year : Double) (month : Nat) : Double :=
  ((dayFromYear year).add (monthStart month)).add
    (if month ≥ 2 && isLeap year.toI64 then ofInt 1 else ofInt 0)

/-- The start of a month in a year with `leap` leap days. -/
def shiftedStart (leap : Double) (m : Nat) : Double :=
  (monthStart m).add (if m ≥ 2 then leap else ofInt 0)

/-- `month_from_time`. -/
def monthFromTime (turns : Nat) (t : Double) : Option Double := do
  let d ← dayWithinYear turns t
  let leap ← inLeapYear turns t
  return match (List.range 12).find? fun m =>
      (shiftedStart leap m).le d && d.lt (shiftedStart leap (m + 1)) with
    | some m => ofInt m
    | none => ofInt 11

/-- `date_from_time`. -/
def dateFromTime (turns : Nat) (t : Double) : Option Double := do
  let d ← dayWithinYear turns t
  let leap ← inLeapYear turns t
  let m ← monthFromTime turns t
  return (d.sub (shiftedStart leap m.toI64.toNat)).add (ofInt 1)

/-! ## §4 The time of day -/

/-- `hour_from_time`. -/
def hourFromTime (t : Double) : Double := ((timeWithinDay t).quot msPerHour).floor

/-- `min_from_time`. -/
def minFromTime (t : Double) : Double := (((timeWithinDay t).quot msPerMinute).floor).rem 60

/-- `sec_from_time`. -/
def secFromTime (t : Double) : Double := (((timeWithinDay t).quot msPerSecond).floor).rem 60

/-- `ms_from_time`. -/
def msFromTime (t : Double) : Double := (timeWithinDay t).rem msPerSecond

/-! ## §5 Composing -/

/-- `make_time`. -/
def makeTime (hour min sec ms : Double) : Double :=
  if hour.isFinite && min.isFinite && sec.isFinite && ms.isFinite then
    (((hour.trunc.scale msPerHour).add (min.trunc.scale msPerMinute)).add
      (sec.trunc.scale msPerSecond)).add ms.trunc
  else .nan

/-- `make_day`. -/
def makeDay (year month date : Double) : Double :=
  if year.isFinite && month.isFinite && date.isFinite then
    let m := month.trunc
    let ym := year.trunc.add (m.quot 12).floor
    let r := m.rem 12
    let mn := if r.lt (ofInt 0) then r.add (ofInt 12) else r
    ((monthStartDay ym mn.toI64.toNat).add date.trunc).sub (ofInt 1)
  else .nan

/-- `make_date`. -/
def makeDate (day time : Double) : Double := (day.scale msPerDay).add time

/-! ## §6 The property -/

/-- The days of a month, counted from 0, in the Gregorian calendar. -/
def daysInMonth (y : ℤ) (m : Nat) : ℤ :=
  if m = 1 then if 4 ∣ y ∧ (¬ 100 ∣ y ∨ 400 ∣ y) then 29 else 28
  else if m = 3 ∨ m = 5 ∨ m = 8 ∨ m = 10 then 30 else 31

/-- The decomposition of a time value into fields in their ranges, from which it is
composed again. -/
structure Decomposed (turns : Nat) (t y : ℤ) (month : Nat) (date hour min sec ms : ℤ) : Prop where
  year : yearFromTime turns (ofInt t) = some (ofInt y)
  monthEq : monthFromTime turns (ofInt t) = some (ofInt month)
  dateEq : dateFromTime turns (ofInt t) = some (ofInt date)
  hourEq : hourFromTime (ofInt t) = ofInt hour
  minEq : minFromTime (ofInt t) = ofInt min
  secEq : secFromTime (ofInt t) = ofInt sec
  msEq : msFromTime (ofInt t) = ofInt ms
  monthRange : month < 12
  dateRange : 1 ≤ date ∧ date ≤ daysInMonth y month
  hourRange : 0 ≤ hour ∧ hour < 24
  minRange : 0 ≤ min ∧ min < 60
  secRange : 0 ≤ sec ∧ sec < 60
  msRange : 0 ≤ ms ∧ ms < 1000
  composed : makeDate (makeDay (ofInt y) (ofInt month) (ofInt date))
    (makeTime (ofInt hour) (ofInt min) (ofInt sec) (ofInt ms)) = ofInt t

def IsTimeValue (t : ℤ) : Prop := -8640000000000000 ≤ t ∧ t ≤ 8640000000000000

/-- Every time value is decomposed after finitely many turns, and
a month past December is one of the next year: over all whole numbers that are doubles. -/
structure Calendar : Prop where
  decomposed : ∀ t, IsTimeValue t → ∃ enough, ∀ turns ≥ enough,
    ∃ y month date hour min sec ms, Decomposed turns t y month date hour min sec ms
  overflow : ∀ y m : ℤ, IsFloat m.natAbs → IsFloat (m + 12).natAbs → ∀ date time,
    makeDay (ofInt y) (ofInt (m + 12)) date = makeDay (ofInt (y + 1)) (ofInt m) date ∧
      makeDate (makeDay (ofInt y) (ofInt (m + 12)) date) time =
        makeDate (makeDay (ofInt (y + 1)) (ofInt m) date) time

end V12.DateTime
