/-
V12.Lib.Decimal — decimal numbers and the doubles they are rounded to.

The digits of a natural number, the float nearest to `s · 10^e`, and the
shortest decimal that is rounded to a float. Where its point stands is told by
comparing the float with powers of 10 (`point_le_iff`), and a whole number below
2⁵³ is its own shortest decimal (`IsShortest.whole`).
-/
import V12.Lib.Rounding
import Mathlib.Algebra.Order.Field.Power
import Mathlib.Tactic.FieldSimp

namespace Lib.Decimal

open Lib.Binary64

/-! ## §1 Digits -/

def len (n : Nat) : Nat := (Nat.toDigits 10 n).length

theorem len_pos (n : Nat) : 0 < len n := Nat.length_toDigits_pos

theorem lt_pow_len (n : Nat) : n < 10 ^ len n :=
  (Nat.length_toDigits_le_iff (by decide) (len_pos n)).mp (Nat.le_refl _)

theorem pow_le_of_len {n : Nat} (hn : n ≠ 0) : 10 ^ (len n - 1) ≤ n := by
  rcases Nat.eq_or_lt_of_le (len_pos n) with hone | hmany
  · rw [← hone]
    exact Nat.pos_of_ne_zero hn
  · by_contra hlt
    have hle := (Nat.length_toDigits_le_iff (n := n) (b := 10) (by decide)
      (k := len n - 1) (by omega)).mpr (Nat.lt_of_not_le hlt)
    have : len n ≤ len n - 1 := hle
    omega

theorem len_eq {n k : Nat} (hlow : 10 ^ k ≤ n) (hhigh : n < 10 ^ (k + 1)) : len n = k + 1 := by
  have hle : len n ≤ k + 1 := (Nat.length_toDigits_le_iff (by decide) (by omega)).mpr hhigh
  have hpow := Nat.lt_of_le_of_lt hlow (lt_pow_len n)
  have := (Nat.pow_lt_pow_iff_right (a := 10) (by decide)).mp hpow
  omega

theorem toDigits_mul_pow {n : Nat} (hn : n ≠ 0) (j : Nat) :
    Nat.toDigits 10 (n * 10 ^ j) = Nat.toDigits 10 n ++ List.replicate j '0' := by
  induction j with
  | zero => simp
  | succ j ih =>
    have hpos : 0 < n * 10 ^ j := Nat.mul_pos (Nat.pos_of_ne_zero hn) (Nat.pow_pos (by decide))
    have happend := Nat.toDigits_append_toDigits (b := 10) (d := 0) (by decide) hpos (by decide)
    have heq : n * 10 ^ (j + 1) = 10 * (n * 10 ^ j) + 0 := by
      rw [Nat.pow_succ]
      ring
    rw [heq, ← happend, ih, Nat.toDigits_zero, List.replicate_succ', List.append_assoc]

theorem toDigits_injective {m n : Nat} (h : Nat.toDigits 10 m = Nat.toDigits 10 n) : m = n := by
  have hvalue := congrArg (fun ds => Nat.ofDigitChars 10 ds 0) h
  simpa using hvalue

/-! ## §2 Rounding -/

/-- `s · 10^e` is a quotient. -/
def numerator (s : Nat) (e : Int) : Nat := s * 10 ^ e.toNat

def denominator (e : Int) : Nat := 10 ^ (-e).toNat

theorem denominator_pos (e : Int) : 0 < denominator e := Nat.pow_pos (by decide)

theorem quotient_eq (s : Nat) (e : Int) :
    (numerator s e : ℚ) = s * (10 : ℚ) ^ e * denominator e := by
  unfold numerator denominator
  rcases le_total 0 e with h | h
  · obtain ⟨j, rfl⟩ := Int.eq_ofNat_of_zero_le h
    simp
  · obtain ⟨j, hj⟩ := Int.eq_ofNat_of_zero_le (Int.neg_nonneg_of_nonpos h)
    obtain rfl : e = -(j : Int) := by omega
    have hne : (10 : ℚ) ^ j ≠ 0 := pow_ne_zero j (by norm_num)
    simp [hne]

/-- The float nearest to `s · 10^e`, in units. -/
def rounded (s : Nat) (e : Int) : Nat :=
  roundUnits (numerator s e * unitsPerOne) (denominator e)

section Rounded

variable {s s' u : Nat} {e e' : Int}

theorem isFloat_rounded (s : Nat) (e : Int) : IsFloat (rounded s e) :=
  isFloat_roundUnits (denominator_pos e)

theorem rounded_mono (h : (s : ℚ) * 10 ^ e ≤ s' * 10 ^ e') : rounded s e ≤ rounded s' e' := by
  refine roundUnits_mono (denominator_pos e) (denominator_pos e') ?_
  have hd : (0 : ℚ) < denominator e := Nat.cast_pos.mpr (denominator_pos e)
  have hd' : (0 : ℚ) < denominator e' := Nat.cast_pos.mpr (denominator_pos e')
  have hu : (0 : ℚ) < unitsPerOne := Nat.cast_pos.mpr unitsPerOne_pos
  rw [← Nat.cast_le (α := ℚ)]
  push_cast
  rw [quotient_eq, quotient_eq]
  have hscale := mul_le_mul_of_nonneg_right h
    (le_of_lt (mul_pos (mul_pos hd hd') hu))
  calc (s : ℚ) * 10 ^ e * denominator e * unitsPerOne * denominator e'
      = s * 10 ^ e * (denominator e * denominator e' * unitsPerOne) := by ring
    _ ≤ s' * 10 ^ e' * (denominator e * denominator e' * unitsPerOne) := hscale
    _ = s' * 10 ^ e' * denominator e' * unitsPerOne * denominator e := by ring

theorem rounded_eq (hu : IsFloat u) (h : (s : ℚ) * 10 ^ e * unitsPerOne = u) : rounded s e = u := by
  have heq : numerator s e * unitsPerOne = u * denominator e := by
    rw [← Nat.cast_inj (R := ℚ)]
    push_cast
    rw [quotient_eq, ← h]
    ring
  rw [rounded, heq, roundUnits_mul hu (denominator_pos e)]

theorem rounded_le (hu : IsFloat u) (h : (s : ℚ) * 10 ^ e * unitsPerOne ≤ u) :
    rounded s e ≤ u := by
  refine roundUnits_le hu (denominator_pos e) ?_
  have hd : (0 : ℚ) ≤ denominator e := Nat.cast_nonneg _
  rw [← Nat.cast_le (α := ℚ)]
  push_cast
  rw [quotient_eq]
  calc (s : ℚ) * 10 ^ e * denominator e * unitsPerOne
      = s * 10 ^ e * unitsPerOne * denominator e := by ring
    _ ≤ u * denominator e := mul_le_mul_of_nonneg_right h hd

theorem le_rounded (hu : IsFloat u) (h : (u : ℚ) ≤ s * 10 ^ e * unitsPerOne) :
    u ≤ rounded s e := by
  refine le_roundUnits hu (denominator_pos e) ?_
  have hd : (0 : ℚ) ≤ denominator e := Nat.cast_nonneg _
  rw [← Nat.cast_le (α := ℚ)]
  push_cast
  rw [quotient_eq]
  calc (u : ℚ) * denominator e ≤ s * 10 ^ e * unitsPerOne * denominator e :=
        mul_le_mul_of_nonneg_right h hd
    _ = s * 10 ^ e * denominator e * unitsPerOne := by ring

theorem decimal_lt (s : Nat) (e : Int) : (s : ℚ) * 10 ^ e < 10 ^ (e + len s) := by
  have hs : (s : ℚ) < 10 ^ len s := by exact_mod_cast lt_pow_len s
  rw [zpow_add₀ (by norm_num), zpow_natCast, mul_comm]
  exact mul_lt_mul_of_pos_left hs (zpow_pos (by norm_num) e)

theorem le_decimal (hs : s ≠ 0) : (10 : ℚ) ^ (e + len s - 1) ≤ s * 10 ^ e := by
  have hle : (10 : ℚ) ^ (len s - 1) ≤ s := by exact_mod_cast pow_le_of_len hs
  have hexp : e + len s - 1 = e + ((len s - 1 : Nat) : Int) := by
    have := len_pos s
    omega
  rw [hexp, zpow_add₀ (by norm_num), zpow_natCast, mul_comm]
  exact mul_le_mul_of_nonneg_right hle (le_of_lt (zpow_pos (by norm_num) e))

end Rounded

/-! ## §3 Shortest decimals -/

/-- `s · 10^e` is rounded to the float, and no decimal with fewer digits is. -/
structure IsShortest (u s : Nat) (e : Int) : Prop where
  pos : s ≠ 0
  rounds : rounded s e = u
  least : ∀ s' e', s' ≠ 0 → rounded s' e' = u → len s ≤ len s'

theorem exists_rounded {u : Nat} (hu : IsFloat u) (hpos : u ≠ 0) :
    ∃ s e, s ≠ 0 ∧ rounded s e = u := by
  refine ⟨u * 5 ^ 1074, -1074, Nat.mul_ne_zero hpos (pow_ne_zero 1074 (by decide)), ?_⟩
  have hpow : ∀ k : Nat, (5 : ℚ) ^ k * 10 ^ (-(k : Int)) * 2 ^ k = 1 := by
    intro k
    rw [zpow_neg, zpow_natCast, mul_right_comm, ← mul_pow]
    norm_num
  refine rounded_eq hu ?_
  have hunits : (unitsPerOne : ℚ) = 2 ^ 1074 := by rw [unitsPerOne, Nat.cast_pow, Nat.cast_ofNat]
  have hone := hpow 1074
  rw [hunits, Nat.cast_mul, Nat.cast_pow, Nat.cast_ofNat, mul_assoc, mul_assoc,
    ← mul_assoc ((5 : ℚ) ^ 1074)]
  exact (congrArg (fun q : ℚ => (u : ℚ) * q) hone).trans (mul_one _)

theorem exists_isShortest {u : Nat} (hu : IsFloat u) (hpos : u ≠ 0) :
    ∃ s e, IsShortest u s e := by
  classical
  have hex : ∃ k s e, s ≠ 0 ∧ rounded s e = u ∧ len s = k := by
    obtain ⟨s, e, hs, hr⟩ := exists_rounded hu hpos
    exact ⟨len s, s, e, hs, hr, rfl⟩
  obtain ⟨s, e, hs, hr, hlen⟩ := Nat.find_spec hex
  refine ⟨s, e, hs, hr, fun s' e' hs' hr' => ?_⟩
  rw [hlen]
  exact Nat.find_min' hex ⟨s', e', hs', hr', rfl⟩

section Point

variable {u s : Nat} {e P : Int}

/-- A power of 10 is told apart from the largest decimal of one digit below it. -/
def Apart (P : Int) : Prop := rounded 9 (P - 1) < rounded 1 P

/-- **Where the point of a shortest decimal stands**: not behind `P` exactly if the float is
below that of `10^P`. -/
theorem point_le_iff (h : IsShortest u s e) (hP : Apart P) :
    e + len s ≤ P ↔ u < rounded 1 P := by
  have hten : (1 : ℚ) < 10 := by norm_num
  constructor
  · intro hle
    have hbelow : (s : ℚ) * 10 ^ e ≤ (1 : Nat) * 10 ^ P := by
      rw [Nat.cast_one, one_mul]
      exact (le_of_lt (decimal_lt s e)).trans (zpow_le_zpow_right₀ (le_of_lt hten) hle)
    have hmono := rounded_mono hbelow
    rw [h.rounds] at hmono
    rcases Nat.lt_or_eq_of_le hmono with hlt | heq
    · exact hlt
    -- the power itself is then shortest, so there is one digit
    exfalso
    have hone := h.least 1 P one_ne_zero heq.symm
    have hlen : len s = 1 := Nat.le_antisymm hone (len_pos s)
    have hdigit := lt_pow_len s
    rw [hlen, Nat.pow_one] at hdigit
    have hnine : (s : ℚ) * 10 ^ e ≤ (9 : Nat) * 10 ^ (P - 1) := by
      refine mul_le_mul (by exact_mod_cast Nat.le_of_lt_succ hdigit) ?_
        (le_of_lt (zpow_pos (by norm_num) e)) (by norm_num)
      exact zpow_le_zpow_right₀ (le_of_lt hten) (by rw [hlen] at hle; omega)
    have := rounded_mono hnine
    rw [h.rounds, heq] at this
    exact absurd hP (Nat.not_lt.mpr this)
  · intro hlt
    by_contra hgt
    have habove : ((1 : Nat) : ℚ) * 10 ^ P ≤ s * 10 ^ e := by
      rw [Nat.cast_one, one_mul]
      exact (zpow_le_zpow_right₀ (le_of_lt hten) (by omega)).trans (le_decimal h.pos)
    have hmono := rounded_mono habove
    rw [h.rounds] at hmono
    omega

theorem rounded_pow {j : Nat} (hj : j ≤ 21) : rounded 1 j = 10 ^ j * unitsPerOne := by
  have hfloat : IsFloat (10 ^ j * unitsPerOne) := by
    have heq : 10 ^ j * unitsPerOne = 5 ^ j * 2 ^ (j + 1074) := by
      rw [unitsPerOne, Nat.pow_add, ← Nat.mul_assoc, ← Nat.mul_pow]
    rw [heq]
    refine isFloat_mul_pow ((Nat.pow_le_pow_right (by decide) hj).trans ?_)
    norm_num
  refine rounded_eq hfloat ?_
  push_cast
  rw [one_mul, zpow_natCast]

theorem apart_natCast {j : Nat} (hj : j ≤ 21) : Apart j := by
  -- 15/16 of the power is a float
  have hfloat : IsFloat (15 * 5 ^ j * 2 ^ (j + 1070)) := by
    refine isFloat_mul_pow ?_
    have := Nat.pow_le_pow_right (n := 5) (by decide) hj
    omega
  have hpow : ∀ k : Nat, (10 : ℚ) ^ j * 2 ^ (k + 4) = 16 * (5 ^ j * 2 ^ (j + k)) := by
    intro k
    rw [show (10 : ℚ) = 5 * 2 by norm_num, mul_pow, pow_add, pow_add]
    ring
  have hunits : (unitsPerOne : ℚ) = 2 ^ (1070 + 4) := by
    rw [unitsPerOne, Nat.cast_pow, Nat.cast_ofNat]
  have hle : rounded 9 (j - 1) ≤ 15 * 5 ^ j * 2 ^ (j + 1070) := by
    refine rounded_le hfloat ?_
    rw [zpow_sub₀ (by norm_num), zpow_natCast, zpow_one, hunits]
    have hpos : (0 : ℚ) < 5 ^ j * 2 ^ (j + 1070) := by positivity
    have := hpow 1070
    push_cast
    generalize (2 : ℚ) ^ (1070 + 4) = a at *
    generalize (2 : ℚ) ^ (j + 1070) = b at *
    calc (9 : ℚ) * (10 ^ j / 10) * a = 9 / 10 * (10 ^ j * a) := by ring
      _ = 9 / 10 * (16 * (5 ^ j * b)) := by rw [this]
      _ ≤ 15 * 5 ^ j * b := by linarith
  rw [Apart, rounded_pow hj]
  refine Nat.lt_of_le_of_lt hle ?_
  have hpow' : 10 ^ j * unitsPerOne = 16 * (5 ^ j * 2 ^ (j + 1070)) := by
    have := hpow 1070
    rw [← hunits] at this
    exact_mod_cast this
  have hpos : 0 < 5 ^ j * 2 ^ (j + 1070) :=
    Nat.mul_pos (Nat.pow_pos (by decide)) (Nat.two_pow_pos _)
  rw [hpow', Nat.mul_assoc]
  omega

theorem apart_micro : Apart (-6) := by
  obtain ⟨k, hk⟩ : ∃ k, 1074 = k + 25 := ⟨1049, rfl⟩
  have hunits : (unitsPerOne : ℚ) = 2 ^ k * 2 ^ 25 := by
    rw [unitsPerOne, hk, ← pow_add, Nat.cast_pow, Nat.cast_ofNat]
  have hpos : (0 : ℚ) < 2 ^ k := by positivity
  have hlow : rounded 9 (-6 - 1) ≤ 32 * 2 ^ k := by
    refine rounded_le (isFloat_mul_pow (by norm_num)) ?_
    rw [hunits]
    push_cast
    generalize (2 : ℚ) ^ k = a at *
    norm_num
    linarith
  have hhigh : 33 * 2 ^ k ≤ rounded 1 (-6) := by
    refine le_rounded (isFloat_mul_pow (by norm_num)) ?_
    rw [hunits]
    push_cast
    generalize (2 : ℚ) ^ k = a at *
    norm_num
    linarith
  refine Nat.lt_of_le_of_lt hlow (Nat.lt_of_lt_of_le ?_ hhigh)
  exact Nat.mul_lt_mul_of_pos_right (by decide) (Nat.two_pow_pos _)

/-- **A whole number below 2⁵³ is its own shortest decimal**, but for the zeros at its end. -/
theorem IsShortest.whole {m : Nat} (h : IsShortest (m * unitsPerOne) s e) (hm : m ≠ 0)
    (hlt : m < 2 ^ 53) : 0 ≤ e ∧ m = s * 10 ^ e.toNat := by
  have hself : rounded m 0 = m * unitsPerOne := by
    refine rounded_eq (isFloat_of_lt hlt).mul_unitsPerOne ?_
    rw [zpow_zero, mul_one, Nat.cast_mul]
  have hshort := h.least m 0 hm hself
  have hlen : len m ≤ 16 := (Nat.length_toDigits_le_iff (by decide) (by decide)).mpr (by omega)
  have he : 0 ≤ e := by
    by_contra hneg
    have hlenpos := len_pos m
    have hpoint := (point_le_iff h (apart_natCast (j := len m - 1) (by omega))).mp (by omega)
    rw [rounded_pow (by omega)] at hpoint
    have := Nat.lt_of_mul_lt_mul_right hpoint
    exact absurd (pow_le_of_len hm) (Nat.not_le.mpr this)
  refine ⟨he, ?_⟩
  have hvalue : (s : ℚ) * 10 ^ e = ((s * 10 ^ e.toNat : Nat) : ℚ) := by
    obtain ⟨j, rfl⟩ := Int.eq_ofNat_of_zero_le he
    simp
  rcases Nat.lt_or_ge (s * 10 ^ e.toNat) (2 ^ 53) with hsmall | hlarge
  · have hround : rounded s e = s * 10 ^ e.toNat * unitsPerOne := by
      refine rounded_eq (isFloat_of_lt hsmall).mul_unitsPerOne ?_
      rw [hvalue, ← Nat.cast_mul]
    exact Nat.eq_of_mul_eq_mul_right unitsPerOne_pos (h.rounds.symm.trans hround)
  · -- too large to be rounded to `m`
    have hfloat : IsFloat (2 ^ 53) := by
      have := isFloat_mul_pow (m := 2 ^ 53) (k := 0) (Nat.le_refl _)
      rwa [Nat.pow_zero, Nat.mul_one] at this
    have hle : 2 ^ 53 * unitsPerOne ≤ rounded s e := by
      refine le_rounded hfloat.mul_unitsPerOne ?_
      rw [hvalue, ← Nat.cast_mul, Nat.cast_le]
      exact Nat.mul_le_mul_right _ hlarge
    rw [h.rounds] at hle
    exact absurd (Nat.le_of_mul_le_mul_right hle unitsPerOne_pos) (Nat.not_le.mpr hlt)

end Point

end Lib.Decimal
