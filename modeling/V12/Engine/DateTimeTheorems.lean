/-
V12.Engine.DateTimeTheorems — a time value is composed from its fields again.

On whole numbers below 2⁵³ the operations of the source are exact, so that
each function is one of integers (§1, §2). The loop goes to the year that
contains the day from either side (§3).
-/
import Mathlib.Tactic.IntervalCases
import Mathlib.Order.Interval.Set.Basic
import V12.Engine.DateTime

namespace V12.DateTime

open Lib.Binary64 Lib.Binary64.Double

variable {y leap : ℤ}

/-! ## §1 The calendar in integers -/

theorem tmod_eq_zero_iff (y k : ℤ) : y.tmod k = 0 ↔ k ∣ y := Int.dvd_iff_tmod_eq_zero.symm

theorem divFloor_eq (a : ℤ) {b : ℤ} (hb : 0 < b) : divFloor a b = a / b := by
  unfold divFloor
  rw [Int.tdiv_eq_ediv, Int.sign_eq_one_of_pos hb, decide_eq_false (by omega : ¬ b < 0)]
  by_cases hdvd : b ∣ a
  · rw [if_neg, if_pos (.inr hdvd), Int.add_zero]
    exact fun h => h.1 ((tmod_eq_zero_iff a b).mpr hdvd)
  · have hne : a.tmod b ≠ 0 := fun h => hdvd ((tmod_eq_zero_iff a b).mp h)
    by_cases ha : 0 ≤ a
    · rw [if_neg, if_pos (.inl ha), Int.add_zero]
      simp [ha]
    · rw [if_pos, if_neg (not_or.mpr ⟨ha, hdvd⟩), Int.add_sub_cancel]
      exact ⟨hne, by simpa using ha⟩

theorem isLeap_iff (y : ℤ) : isLeap y = true ↔ 4 ∣ y ∧ ¬ 100 ∣ y ∨ 400 ∣ y := by
  simp only [isLeap, tmod_eq_zero_iff, Bool.or_eq_true, Bool.and_eq_true, decide_eq_true_eq, ne_eq]

theorem daysFromEpochToYear_eq (y : ℤ) : daysFromEpochToYear y =
    365 * (y - 1970) + ((y - 1969) / 4 - (y - 1901) / 100 + (y - 1601) / 400) := by
  simp only [daysFromEpochToYear]
  rw [divFloor_eq _ (by decide), divFloor_eq _ (by decide), divFloor_eq _ (by decide),
    show y - 1970 + 1 = y - 1969 by omega, show y - 1970 + 69 = y - 1901 by omega,
    show y - 1970 + 369 = y - 1601 by omega]

def leapDays (y : ℤ) : ℤ := if isLeap y then 1 else 0

theorem leapDays_cases (y : ℤ) : leapDays y = 1 ∧ (4 ∣ y ∧ ¬ 100 ∣ y ∨ 400 ∣ y) ∨
    leapDays y = 0 ∧ ¬ (4 ∣ y ∧ ¬ 100 ∣ y ∨ 400 ∣ y) := by
  unfold leapDays
  rw [← isLeap_iff]
  cases isLeap y <;> simp

theorem daysFromEpochToYear_succ (y : ℤ) :
    daysFromEpochToYear (y + 1) = daysFromEpochToYear y + 365 + leapDays y := by
  rw [daysFromEpochToYear_eq, daysFromEpochToYear_eq]
  rcases leapDays_cases y with ⟨h, hy⟩ | ⟨h, hy⟩ <;> omega

theorem daysFromEpochToYear_lt {z : ℤ} (h : y < z) :
    daysFromEpochToYear y < daysFromEpochToYear z := by
  rw [daysFromEpochToYear_eq, daysFromEpochToYear_eq]
  omega

theorem exists_year (n : ℤ) : ∃ y, daysFromEpochToYear y ≤ n ∧ n < daysFromEpochToYear (y + 1) := by
  have hbound : ∀ z, daysFromEpochToYear z ≤ n → z ≤ 1970 + n.natAbs := by
    intro z hz
    rw [daysFromEpochToYear_eq] at hz
    omega
  have hsome : daysFromEpochToYear (1969 - n.natAbs) ≤ n := by
    rw [daysFromEpochToYear_eq]
    omega
  obtain ⟨y, hy, hmax⟩ := Int.exists_greatest_of_bdd ⟨_, hbound⟩ ⟨_, hsome⟩
  refine ⟨y, hy, ?_⟩
  by_contra hle
  have := hmax (y + 1) (not_lt.mp hle)
  omega

theorem year_bounds {n : ℤ} (hn : -100000000 ≤ n ∧ n ≤ 100000000)
    (hy : daysFromEpochToYear y ≤ n ∧ n < daysFromEpochToYear (y + 1)) :
    -271821 ≤ y ∧ y ≤ 275760 := by
  rw [daysFromEpochToYear_eq, daysFromEpochToYear_eq] at hy
  omega

theorem days_bounds (hy : y.natAbs ≤ 200000000) :
    (daysFromEpochToYear y).natAbs ≤ 2 ^ 40 := by
  rw [daysFromEpochToYear_eq]
  omega

/-! ## §2 Exact steps -/

theorem dayFromYear_ofInt (hy : y.natAbs ≤ 200000000) :
    dayFromYear (ofInt y) = ofInt (daysFromEpochToYear y) := by
  have h4 : ((ofInt (y - 1969)).quot 4).floor = ofInt ((y - 1969) / 4) := by
    exact_mod_cast floor_quot (a := y - 1969) (d := 4) (k := 2) (by decide) (by decide) (by decide)
      (by norm_num; omega) (by norm_num; omega)
  have h100 : ((ofInt (y - 1901)).quot 100).floor = ofInt ((y - 1901) / 100) := by
    exact_mod_cast floor_quot (a := y - 1901) (d := 100) (k := 6) (by decide) (by decide) (by decide)
      (by norm_num; omega) (by norm_num; omega)
  have h400 : ((ofInt (y - 1601)).quot 400).floor = ofInt ((y - 1601) / 400) := by
    exact_mod_cast floor_quot (a := y - 1601) (d := 400) (k := 8) (by decide) (by decide) (by decide)
      (by norm_num; omega) (by norm_num; omega)
  have h365 : (ofInt (y - 1970)).scale 365 = ofInt (365 * (y - 1970)) := by
    exact_mod_cast scale_ofInt (a := y - 1970) (b := 365) (by omega)
  unfold dayFromYear
  rw [sub_ofInt (by omega), sub_ofInt (by omega), sub_ofInt (by omega), sub_ofInt (by omega),
    h365, h4, h100, h400, add_ofInt (by omega), sub_ofInt (by omega), add_ofInt (by omega),
    daysFromEpochToYear_eq]
  congr 1
  omega

theorem wrapped_rem (a : ℤ) {d : Nat} (hd : 0 < d) (hsmall : d ≤ 2 ^ 53) :
    (if ((ofInt a).rem d).lt (ofInt 0) then ((ofInt a).rem d).add (ofInt d) else (ofInt a).rem d) =
      ofInt (a % d) := by
  have hmod := Int.tmod_eq_emod (a := a) (b := d)
  have hmod0 := Int.emod_nonneg a (Int.natCast_ne_zero.mpr (Nat.ne_of_gt hd))
  have hmod1 := Int.emod_lt_of_pos a (Int.natCast_pos.mpr hd)
  rw [rem_ofInt a hd, lt_ofInt]
  rw [Int.natAbs_natCast] at hmod
  by_cases hneg : a.tmod d < 0
  · rw [if_pos (by simpa using hneg)]
    split at hmod
    · omega
    · rw [add_ofInt (by omega), hmod, Int.sub_add_cancel]
  · rw [if_neg (by simpa using hneg)]
    split at hmod
    · rw [hmod, Nat.cast_zero, Int.sub_zero]
    · omega

theorem wrapped_twelve (a : ℤ) : (if ((ofInt a).rem 12).lt (ofInt 0) then
    ((ofInt a).rem 12).add (ofInt 12) else (ofInt a).rem 12) = ofInt (a % 12) := by
  have hwrap := wrapped_rem a (d := 12) (by decide) (by decide)
  exact_mod_cast hwrap

section TimeValue

variable {t : ℤ}

theorem day_ofInt (ht : IsTimeValue t) : day (ofInt t) = ofInt (t / 86400000) := by
  unfold day msPerDay
  have ht' := ht
  unfold IsTimeValue at ht'
  exact_mod_cast floor_quot (a := t) (d := 86400000) (k := 26) (by decide) (by decide) (by decide)
    (by norm_num; omega) (by norm_num; omega)

theorem day_bounds (ht : IsTimeValue t) : -100000000 ≤ t / 86400000 ∧ t / 86400000 ≤ 100000000 := by
  unfold IsTimeValue at ht
  omega

theorem timeWithinDay_ofInt (t : ℤ) : timeWithinDay (ofInt t) = ofInt (t % 86400000) := by
  have hwrap := wrapped_rem t (d := 86400000) (by decide) (by decide)
  unfold timeWithinDay msPerDay
  exact_mod_cast hwrap

theorem timeOfDay_bounds (t : ℤ) : 0 ≤ t % 86400000 ∧ t % 86400000 < 86400000 := by
  omega

theorem hourFromTime_ofInt (t : ℤ) : hourFromTime (ofInt t) = ofInt (t % 86400000 / 3600000) := by
  unfold hourFromTime msPerHour
  rw [timeWithinDay_ofInt]
  exact_mod_cast floor_quot (a := t % 86400000) (d := 3600000) (k := 21) (by decide) (by decide)
    (by decide) (by norm_num; omega) (by norm_num; omega)

theorem sixties_ofInt (t : ℤ) {d : Nat} (hd : d = 60000 ∨ d = 1000) :
    (((timeWithinDay (ofInt t)).quot d).floor).rem 60 = ofInt (t % 86400000 / d % 60) := by
  have hquot : ((ofInt (t % 86400000)).quot d).floor = ofInt (t % 86400000 / d) := by
    rcases hd with rfl | rfl
    · exact floor_quot (k := 15) (by decide) (by decide) (by decide) (by norm_num; omega)
        (by norm_num; omega)
    · exact floor_quot (k := 9) (by decide) (by decide) (by decide) (by norm_num; omega)
        (by norm_num; omega)
  have hrem := rem_ofInt (t % 86400000 / d) (d := 60) (by decide)
  have hpos : 0 ≤ t % 86400000 / d := by rcases hd with rfl | rfl <;> omega
  rw [Int.tmod_eq_emod_of_nonneg hpos] at hrem
  rw [timeWithinDay_ofInt, hquot]
  exact_mod_cast hrem

theorem minFromTime_ofInt (t : ℤ) : minFromTime (ofInt t) = ofInt (t % 86400000 / 60000 % 60) := by
  exact_mod_cast sixties_ofInt t (.inl rfl)

theorem secFromTime_ofInt (t : ℤ) : secFromTime (ofInt t) = ofInt (t % 86400000 / 1000 % 60) := by
  exact_mod_cast sixties_ofInt t (.inr rfl)

theorem msFromTime_ofInt (t : ℤ) : msFromTime (ofInt t) = ofInt (t % 86400000 % 1000) := by
  have hrem := rem_ofInt (t % 86400000) (d := 1000) (by decide)
  rw [Int.tmod_eq_emod_of_nonneg (timeOfDay_bounds t).1] at hrem
  unfold msFromTime msPerSecond
  rw [timeWithinDay_ofInt]
  exact_mod_cast hrem

end TimeValue

/-! ## §3 The loop that finds the year -/

section Loop

variable {n y : ℤ}

/-- **The loop ends** at the year that contains the day, whichever year it starts at: every turn
takes it one year nearer. -/
theorem yearLoop_eq (hy : daysFromEpochToYear y ≤ n ∧ n < daysFromEpochToYear (y + 1))
    (hsmall : y.natAbs ≤ 150000000) (turns : Nat) (z : ℤ) (hz : z.natAbs ≤ 150000000)
    (hturns : (z - y).natAbs < turns) : yearLoop (ofInt n) turns z = some y := by
  induction turns generalizing z with
  | zero => omega
  | succ turns ih =>
    have hdays := days_bounds (y := z) (by omega)
    have hdays' := days_bounds (y := z + 1) (by omega)
    rw [yearLoop, ofRat_intCast (by omega), ofRat_intCast (by omega), lt_ofInt, le_ofInt]
    simp only [decide_eq_true_eq]
    rcases lt_trichotomy z y with hlt | rfl | hgt
    · have hbelow := daysFromEpochToYear_lt hlt
      have hnext : daysFromEpochToYear (z + 1) ≤ daysFromEpochToYear y := by
        rcases eq_or_lt_of_le (show z + 1 ≤ y by omega) with heq | hlt'
        · rw [heq]
        · exact (daysFromEpochToYear_lt hlt').le
      rw [if_neg (by omega), if_pos (by omega)]
      exact ih (z + 1) (by omega) (by omega)
    · rw [if_neg (by omega), if_neg (by omega)]
    · have habove : daysFromEpochToYear (y + 1) ≤ daysFromEpochToYear z := by
        rcases eq_or_lt_of_le (show y + 1 ≤ z by omega) with heq | hlt'
        · rw [heq]
        · exact (daysFromEpochToYear_lt hlt').le
      rw [if_pos (by omega)]
      exact ih (z - 1) (by omega) (by omega)

theorem yearEstimate_bound (hn : -100000000 ≤ n ∧ n ≤ 100000000) :
    (yearEstimate (ofInt n)).natAbs ≤ 150000000 := by
  have hmean : (1 : ℚ) ≤ roundRat 365.2425 := by
    have hone : Representable ((1 : ℤ) : ℚ) := representable_intCast (by decide)
    exact_mod_cast le_roundRat hone (by norm_num)
  have hpos : (0 : ℚ) < roundRat 365.2425 := by linarith
  have hn1 : (-100000000 : ℚ) ≤ n := by exact_mod_cast hn.1
  have hn2 : (n : ℚ) ≤ 100000000 := by exact_mod_cast hn.2
  have hquot : (-100000000 : ℚ) ≤ n / roundRat 365.2425 ∧ n / roundRat 365.2425 ≤ 100000000 := by
    constructor
    · rw [le_div_iff₀ hpos]
      linarith
    · rw [div_le_iff₀ hpos]
      linarith
  have hlow : (-100000000 : ℚ) ≤ roundRat (n / roundRat 365.2425) := by
    have hrep : Representable ((-100000000 : ℤ) : ℚ) := representable_intCast (by decide)
    exact_mod_cast le_roundRat hrep (by exact_mod_cast hquot.1)
  have hhigh : roundRat (n / roundRat 365.2425) ≤ 100000000 := by
    have hrep : Representable ((100000000 : ℤ) : ℚ) := representable_intCast (by decide)
    exact_mod_cast roundRat_le hrep (by exact_mod_cast hquot.2)
  have hfinite : |roundRat (n / roundRat 365.2425)| < limit := by
    have hle : |roundRat (n / roundRat 365.2425)| ≤ 2 ^ 53 := by
      rw [abs_le]
      constructor <;> linarith
    exact hle.trans_lt (pow_lt_pow_right₀ (by norm_num) (by norm_num))
  have hfloor1 : -100000000 ≤ ⌊roundRat (n / roundRat 365.2425)⌋ :=
    Int.le_floor.mpr (by exact_mod_cast hlow)
  have hfloor2 : ⌊roundRat (n / roundRat 365.2425)⌋ ≤ 100000000 := by
    have hle := Int.floor_le (roundRat (n / roundRat 365.2425))
    exact_mod_cast hle.trans hhigh
  have hfield : ((ofInt n).quot (roundRat 365.2425)).floor =
      ofInt ⌊roundRat (n / roundRat 365.2425)⌋ := by
    simp only [quot, ofInt, ofRat, if_pos hfinite, floor]
  unfold yearEstimate
  rw [hfield, toI64_ofInt (by omega)]
  omega

end Loop

/-! ## §4 The month -/

def startOfMonth (leap : ℤ) (m : Nat) : ℤ := monthStarts.getD m 0 + if m ≥ 2 then leap else 0

theorem startOfMonth_bounds (hleap : leap = 0 ∨ leap = 1) (m : Nat) :
    0 ≤ startOfMonth leap m ∧ startOfMonth leap m ≤ 366 := by
  have hstart : 0 ≤ monthStarts.getD m 0 ∧ monthStarts.getD m 0 ≤ 365 := by
    by_cases hm : m < 13
    · interval_cases m <;> decide
    · rw [List.getD_eq_getElem?_getD, List.getElem?_eq_none (by simpa [monthStarts] using hm)]
      decide
  unfold startOfMonth
  split <;> omega

theorem shiftedStart_ofInt (hleap : leap = 0 ∨ leap = 1) (m : Nat) :
    shiftedStart (ofInt leap) m = ofInt (startOfMonth leap m) := by
  have hbounds := startOfMonth_bounds hleap m
  unfold startOfMonth at hbounds ⊢
  unfold shiftedStart monthStart
  split
  · next h =>
    rw [if_pos h] at hbounds
    exact add_ofInt (by omega)
  · next h =>
    rw [if_neg h] at hbounds
    exact add_ofInt (by omega)

theorem find_month {d : ℤ} (hd : 0 ≤ d ∧ d < 365 + leap) (hleap : leap = 0 ∨ leap = 1) :
    ∃ m, (List.range 12).find? (fun m => (shiftedStart (ofInt leap) m).le (ofInt d) &&
        (ofInt d).lt (shiftedStart (ofInt leap) (m + 1))) = some m ∧
      m < 12 ∧ startOfMonth leap m ≤ d ∧ d < startOfMonth leap (m + 1) := by
  have hsome : ((List.range 12).find? fun m => (shiftedStart (ofInt leap) m).le (ofInt d) &&
      (ofInt d).lt (shiftedStart (ofInt leap) (m + 1))).isSome = true := by
    rw [List.find?_isSome]
    by_contra hnone
    simp only [not_exists, not_and] at hnone
    -- no month contains the day, so each begins on or before it
    have hbegun : ∀ m, m ≤ 12 → startOfMonth leap m ≤ d := by
      intro m
      induction m with
      | zero => intro _; exact hd.1
      | succ m ih =>
        intro hm
        by_contra hlt
        refine hnone m (List.mem_range.mpr (by omega)) ?_
        rw [shiftedStart_ofInt hleap, shiftedStart_ofInt hleap, le_ofInt, lt_ofInt]
        simpa using ⟨ih (by omega), by omega⟩
    have hlast := hbegun 12 (by omega)
    have hend : startOfMonth leap 12 = 365 + leap := rfl
    omega
  obtain ⟨m, hm⟩ := Option.isSome_iff_exists.mp hsome
  have hmem := List.mem_range.mp (List.mem_of_find?_eq_some hm)
  have htest := List.find?_some hm
  rw [shiftedStart_ofInt hleap, shiftedStart_ofInt hleap, le_ofInt, lt_ofInt] at htest
  simp only [Bool.and_eq_true, decide_eq_true_eq] at htest
  exact ⟨m, hm, hmem, htest⟩

theorem startOfMonth_succ (y : ℤ) {m : Nat} (hm : m < 12) :
    startOfMonth (leapDays y) (m + 1) = startOfMonth (leapDays y) m + daysInMonth y m := by
  have hleap : leapDays y = if 4 ∣ y ∧ (¬ 100 ∣ y ∨ 400 ∣ y) then 1 else 0 := by
    rcases leapDays_cases y with ⟨h, hy⟩ | ⟨h, hy⟩
    · rw [h, if_pos (by omega)]
    · rw [h, if_neg (by omega)]
  unfold startOfMonth daysInMonth
  rw [hleap]
  interval_cases m <;> simp [monthStarts] <;> split <;> omega

/-! ## §5 Composing -/

theorem leapDay_ofInt (year : Double) (m : Nat) (hy : year.toI64 = y) :
    (if m ≥ 2 && isLeap year.toI64 then ofInt 1 else ofInt 0 : Double) =
      ofInt (if m ≥ 2 then leapDays y else 0) := by
  rw [hy]
  unfold leapDays
  by_cases hm2 : m ≥ 2
  · cases isLeap y <;> simp [hm2]
  · simp [hm2]

theorem monthStartDay_ofInt (hy : y.natAbs ≤ 200000000) (m : Nat) :
    monthStartDay (ofInt y) m = ofInt (daysFromEpochToYear y + startOfMonth (leapDays y) m) := by
  have hdays := days_bounds hy
  have hleap := leapDays_cases y
  have hstart := startOfMonth_bounds (show leapDays y = 0 ∨ leapDays y = 1 by omega) m
  have hplain := startOfMonth_bounds (show (0 : ℤ) = 0 ∨ (0 : ℤ) = 1 from .inl rfl) m
  unfold startOfMonth at hstart hplain ⊢
  unfold monthStartDay monthStart
  rw [leapDay_ofInt (ofInt y) m (toI64_ofInt (by omega)), dayFromYear_ofInt hy]
  split at hplain
  · next hm =>
    rw [if_pos hm] at hstart ⊢
    rw [add_ofInt (by omega), add_ofInt (by omega), Int.add_assoc]
  · next hm =>
    rw [if_neg hm] at hstart ⊢
    rw [add_ofInt (by omega), add_ofInt (by omega), Int.add_assoc]

theorem makeDay_ofInt {date : ℤ} {m : Nat} (hy : y.natAbs ≤ 200000000) (hm : m < 12)
    (hdate : date.natAbs ≤ 1000) :
    makeDay (ofInt y) (ofInt m) (ofInt date) =
      ofInt (daysFromEpochToYear y + startOfMonth (leapDays y) m + date - 1) := by
  have hfloor : ((ofInt (m : ℤ)).quot 12).floor = ofInt 0 := by
    have hquot := floor_quot (a := m) (d := 12) (k := 3) (by decide) (by decide) (by decide)
      (by norm_num; omega) (by norm_num; omega)
    rw [show (m : ℤ) / (12 : ℕ) = 0 by omega] at hquot
    exact_mod_cast hquot
  have hmonth := wrapped_twelve m
  rw [show (m : ℤ) % 12 = m by omega] at hmonth
  have hdays := days_bounds hy
  have hleap := leapDays_cases y
  have hstart := startOfMonth_bounds (show leapDays y = 0 ∨ leapDays y = 1 by omega) m
  unfold makeDay
  rw [if_pos (by rfl)]
  simp only [trunc_ofInt, hfloor, hmonth]
  rw [add_ofInt (by omega), Int.add_zero, toI64_ofInt (by omega), Int.toNat_natCast,
    monthStartDay_ofInt hy, add_ofInt (by omega), sub_ofInt (by omega)]

theorem makeTime_ofInt {h mi s ms : ℤ} (hh : 0 ≤ h ∧ h < 24) (hmi : 0 ≤ mi ∧ mi < 60)
    (hs : 0 ≤ s ∧ s < 60) (hms : 0 ≤ ms ∧ ms < 1000) :
    makeTime (ofInt h) (ofInt mi) (ofInt s) (ofInt ms) =
      ofInt (3600000 * h + 60000 * mi + 1000 * s + ms) := by
  have hhour : (ofInt h).scale msPerHour = ofInt (3600000 * h) := by
    exact_mod_cast scale_ofInt (a := h) (b := 3600000) (by omega)
  have hminute : (ofInt mi).scale msPerMinute = ofInt (60000 * mi) := by
    exact_mod_cast scale_ofInt (a := mi) (b := 60000) (by omega)
  have hsecond : (ofInt s).scale msPerSecond = ofInt (1000 * s) := by
    exact_mod_cast scale_ofInt (a := s) (b := 1000) (by omega)
  unfold makeTime
  rw [if_pos (by rfl), trunc_ofInt, trunc_ofInt, trunc_ofInt, trunc_ofInt, hhour, hminute, hsecond,
    add_ofInt (by omega), add_ofInt (by omega), add_ofInt (by omega)]

theorem makeDate_ofInt {d time : ℤ} (hd : -104000000 ≤ d ∧ d ≤ 104000000)
    (htime : 0 ≤ time ∧ time < 86400000) :
    makeDate (ofInt d) (ofInt time) = ofInt (86400000 * d + time) := by
  have hday : (ofInt d).scale msPerDay = ofInt (86400000 * d) := by
    exact_mod_cast scale_ofInt (a := d) (b := 86400000) (by omega)
  unfold makeDate
  rw [hday, add_ofInt (by omega)]

/-! ## §6 The fields of a time value -/

section Fields

variable {t y : ℤ} {turns : Nat}

theorem yearFromTime_ofInt (ht : IsTimeValue t)
    (hy : daysFromEpochToYear y ≤ t / 86400000 ∧ t / 86400000 < daysFromEpochToYear (y + 1))
    (hturns : (yearEstimate (ofInt (t / 86400000)) - y).natAbs < turns) :
    yearFromTime turns (ofInt t) = some (ofInt y) := by
  have hbounds := year_bounds (day_bounds ht) hy
  unfold yearFromTime
  rw [day_ofInt ht, yearLoop_eq hy (by omega) turns _ (yearEstimate_bound (day_bounds ht)) hturns,
    Option.map_some, ofRat_intCast (by omega)]

variable (ht : IsTimeValue t)
  (hy : daysFromEpochToYear y ≤ t / 86400000 ∧ t / 86400000 < daysFromEpochToYear (y + 1))
  (hyear : yearFromTime turns (ofInt t) = some (ofInt y))

include ht hy hyear

theorem inLeapYear_ofInt : inLeapYear turns (ofInt t) = some (ofInt (leapDays y)) := by
  have hbounds := year_bounds (day_bounds ht) hy
  have htoI64 := toI64_ofInt (n := y) (by omega)
  simp only [inLeapYear, hyear, htoI64, leapDays, Option.pure_def, Option.bind_eq_bind,
    Option.bind_some]
  cases isLeap y <;> rfl

theorem dayWithinYear_ofInt :
    dayWithinYear turns (ofInt t) = some (ofInt (t / 86400000 - daysFromEpochToYear y)) := by
  have hbounds := year_bounds (day_bounds ht) hy
  have hdays := days_bounds (y := y) (by omega)
  have hday := day_bounds ht
  simp only [dayWithinYear, hyear, Option.pure_def, Option.bind_eq_bind, Option.bind_some]
  rw [day_ofInt ht, dayFromYear_ofInt (by omega), sub_ofInt (by omega)]

/-- **The decomposition of a time value** whose year is found. -/
theorem decomposed_of_year :
    ∃ month date hour min sec ms, Decomposed turns t y month date hour min sec ms := by
  have hbounds := year_bounds (day_bounds ht) hy
  have hday := day_bounds ht
  have hleap := leapDays_cases y
  have hsucc := daysFromEpochToYear_succ y
  have hin := inLeapYear_ofInt ht hy hyear
  have hwithin := dayWithinYear_ofInt ht hy hyear
  obtain ⟨m, hfind, hm, hfrom, hto⟩ := find_month
    (show 0 ≤ t / 86400000 - daysFromEpochToYear y ∧
      t / 86400000 - daysFromEpochToYear y < 365 + leapDays y by omega) (by omega)
  have hdays := startOfMonth_succ y hm
  have hstart := startOfMonth_bounds (show leapDays y = 0 ∨ leapDays y = 1 by omega) m
  have hmonth : monthFromTime turns (ofInt t) = some (ofInt m) := by
    simp only [monthFromTime, hwithin, hin, hfind, Option.pure_def, Option.bind_eq_bind,
      Option.bind_some]
  have hdate : dateFromTime turns (ofInt t) = some (ofInt
      (t / 86400000 - daysFromEpochToYear y - startOfMonth (leapDays y) m + 1)) := by
    have htoI64 := toI64_ofInt (n := m) (by omega)
    simp only [dateFromTime, hwithin, hin, hmonth, htoI64, Int.toNat_natCast, Option.pure_def,
      Option.bind_eq_bind, Option.bind_some]
    rw [shiftedStart_ofInt (by omega), sub_ofInt (by omega), add_ofInt (by omega)]
  refine ⟨m, _, _, _, _, _, hyear, hmonth, hdate, hourFromTime_ofInt t, minFromTime_ofInt t,
    secFromTime_ofInt t, msFromTime_ofInt t, hm, by omega, by omega, by omega, by omega, by omega, ?_⟩
  rw [makeDay_ofInt (by omega) hm (by omega),
    makeTime_ofInt (by omega) (by omega) (by omega) (by omega), makeDate_ofInt (by omega) (by omega)]
  congr 1
  omega

end Fields

/-! ## §7 Months past the year -/

theorem pow_dvd_of_isFloat {u j : Nat} (hu : IsFloat u) (hle : 2 ^ (52 + j) ≤ u) : 2 ^ j ∣ u := by
  have hexcess : j ≤ excess u := by
    have hlog := (Nat.le_log2 (Nat.ne_of_gt (Nat.lt_of_lt_of_le (Nat.two_pow_pos _) hle))).mpr hle
    unfold excess
    omega
  exact (pow_dvd_pow 2 hexcess).trans hu

theorem quot_mul (a : ℤ) {c : Nat} (hc : 0 < c) (d : Nat) :
    (ofInt (c * a)).quot ((c * d : Nat) : ℚ) = (ofInt a).quot d := by
  have hc' : (c : ℚ) ≠ 0 := Nat.cast_ne_zero.mpr (Nat.ne_of_gt hc)
  simp only [quot, ofInt]
  rw [Nat.cast_mul, Int.cast_mul, Int.cast_natCast, mul_div_mul_left _ _ hc']

theorem floor_quot_twelve {n : ℤ} (hn : IsFloat n.natAbs) (hle : n.natAbs ≤ 2 ^ 55 + 12) :
    ((ofInt n).quot 12).floor = ofInt (n / 12) := by
  rcases Nat.lt_or_ge n.natAbs (2 ^ 53) with h53 | h53
  · exact_mod_cast floor_quot (a := n) (d := 12) (k := 3) (by decide) (by decide) (by decide)
      (by norm_num; omega) (by norm_num; omega)
  rcases Nat.lt_or_ge n.natAbs (2 ^ 54) with h54 | h54
  · -- an even number, and a quotient by 6
    obtain ⟨a, rfl⟩ : (2 : ℤ) ∣ n := Int.ofNat_dvd_left.mpr (pow_dvd_of_isFloat (j := 1) hn h53)
    have hquot := quot_mul a (c := 2) (by decide) 6
    have hfloor := floor_quot (a := a) (d := 6) (k := 2) (by decide) (by decide) (by decide)
      (by norm_num; omega) (by norm_num; omega)
    rw [← hquot, show a / (6 : ℕ) = 2 * a / 12 by omega] at hfloor
    exact_mod_cast hfloor
  · -- a multiple of 4, and a quotient by 3
    obtain ⟨a, rfl⟩ : (4 : ℤ) ∣ n := Int.ofNat_dvd_left.mpr (pow_dvd_of_isFloat (j := 2) hn h54)
    have hquot := quot_mul a (c := 4) (by decide) 3
    have hfloor := floor_quot (a := a) (d := 3) (k := 1) (by decide) (by decide) (by decide)
      (by norm_num; omega) (by norm_num; omega)
    rw [← hquot, show a / (3 : ℕ) = 4 * a / 12 by omega] at hfloor
    exact_mod_cast hfloor

theorem months_bounds {m : ℤ} (hm : IsFloat m.natAbs) (hm' : IsFloat (m + 12).natAbs) :
    m.natAbs ≤ 2 ^ 55 + 12 ∧ (m + 12).natAbs ≤ 2 ^ 55 + 12 := by
  by_contra hlarge
  have hdvd : 8 ∣ m.natAbs := pow_dvd_of_isFloat (j := 3) hm (by omega)
  have hdvd' : 8 ∣ (m + 12).natAbs := pow_dvd_of_isFloat (j := 3) hm' (by omega)
  omega

theorem makeDay_overflow (y : ℤ) {m : ℤ} (hm : IsFloat m.natAbs) (hm' : IsFloat (m + 12).natAbs)
    (date : Double) :
    makeDay (ofInt y) (ofInt (m + 12)) date = makeDay (ofInt (y + 1)) (ofInt m) date := by
  obtain ⟨hle, hle'⟩ := months_bounds hm hm'
  have hfloor := floor_quot_twelve hm hle
  have hfloor' := floor_quot_twelve hm' hle'
  have hmonth := wrapped_twelve (m + 12)
  rw [show (m + 12) % 12 = m % 12 by omega, ← wrapped_twelve m] at hmonth
  -- both years are the same exact sum, rounded once
  have hyear : (ofInt y).add (ofInt ((m + 12) / 12)) = (ofInt (y + 1)).add (ofInt (m / 12)) := by
    simp only [Double.add, ofInt]
    rw [← Int.cast_add, ← Int.cast_add, show y + (m + 12) / 12 = y + 1 + m / 12 by omega]
  have hfinite (a b : ℤ) : (ofInt a).isFinite = (ofInt b).isFinite := rfl
  unfold makeDay
  simp only [trunc_ofInt, hfloor, hfloor', hyear, hmonth, hfinite (m + 12) m, hfinite y (y + 1)]

/-- **The calendar is right** on all dates, and months past December carry. -/
theorem calendar : Calendar where
  decomposed := by
    intro t ht
    obtain ⟨y, hy⟩ := exists_year (t / 86400000)
    refine ⟨(yearEstimate (ofInt (t / 86400000)) - y).natAbs + 1, fun turns hturns => ?_⟩
    have hyear : yearFromTime turns (ofInt t) = some (ofInt y) :=
      yearFromTime_ofInt ht hy (by omega)
    exact ⟨y, decomposed_of_year ht hy hyear⟩
  overflow := by
    intro y m hm hm' date time
    have hday := makeDay_overflow y hm hm' date
    exact ⟨hday, by rw [hday]⟩

end V12.DateTime
