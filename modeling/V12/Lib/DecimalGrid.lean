/-
V12.Lib.DecimalGrid — nearest decimals.

A number is rounded to a multiple of a unit, or to a given number of digits.
`roundUp` takes the larger of two equally near multiples, `roundEven` the even
one; they differ on ties above an even number only (`roundEven_eq_roundUp_iff`).
-/
import Mathlib.Algebra.Order.Floor.Semiring
import Mathlib.Algebra.Order.Floor.Ring
import Mathlib.Data.Int.Log
import Mathlib.Data.Rat.Floor
import Mathlib.Tactic.Linarith
import Mathlib.Tactic.NormNum
import Mathlib.Tactic.Ring

namespace Lib.Decimal

/-! ## §1 Whole numbers -/

def roundUp (r : ℚ) : Nat := ⌊r + 1 / 2⌋₊

def roundEven (r : ℚ) : Nat :=
  if r - ⌊r⌋₊ < 1 / 2 ∨ r - ⌊r⌋₊ = 1 / 2 ∧ ⌊r⌋₊ % 2 = 0 then ⌊r⌋₊ else ⌊r⌋₊ + 1

def EvenTie (r : ℚ) : Prop := r - ⌊r⌋₊ = 1 / 2 ∧ ⌊r⌋₊ % 2 = 0

section Whole

variable {r : ℚ}

theorem floor_bounds (hr : 0 ≤ r) : (⌊r⌋₊ : ℚ) ≤ r ∧ r < ⌊r⌋₊ + 1 :=
  ⟨Nat.floor_le hr, Nat.lt_floor_add_one r⟩

theorem roundUp_eq (hr : 0 ≤ r) :
    roundUp r = if r - ⌊r⌋₊ < 1 / 2 then ⌊r⌋₊ else ⌊r⌋₊ + 1 := by
  obtain ⟨hlow, hhigh⟩ := floor_bounds hr
  generalize ⌊r⌋₊ = k at *
  rw [roundUp, Nat.floor_eq_iff (by linarith)]
  split
  · constructor <;> linarith
  · constructor
    · push_cast
      linarith
    · push_cast
      linarith

theorem roundEven_eq_roundUp_iff (hr : 0 ≤ r) : roundEven r = roundUp r ↔ ¬ EvenTie r := by
  rw [roundUp_eq hr, roundEven, EvenTie]
  generalize ⌊r⌋₊ = k
  rcases lt_trichotomy (r - k) (1 / 2) with hlt | heq | hgt
  · rw [if_pos (.inl hlt), if_pos hlt]
    exact iff_of_true rfl fun h => ne_of_lt hlt h.1
  · rw [if_neg (not_lt.mpr (le_of_eq heq.symm))]
    simp [heq]
  · have hne : ¬ (r - k = 1 / 2 ∧ k % 2 = 0) := fun h => ne_of_gt hgt h.1
    have hnot : ¬ r - k < 1 / 2 := not_lt.mpr (le_of_lt hgt)
    rw [if_neg hnot, if_neg (not_or.mpr ⟨hnot, hne⟩)]
    exact iff_of_true rfl hne

theorem roundEven_of_evenTie (hr : 0 ≤ r) (h : EvenTie r) :
    roundEven r = ⌊r⌋₊ ∧ roundUp r = ⌊r⌋₊ + 1 := by
  rw [roundUp_eq hr, roundEven, if_pos (.inr h), if_neg (by rw [h.1]; exact lt_irrefl _)]
  exact ⟨rfl, rfl⟩

theorem roundUp_bounds (hr : 0 ≤ r) :
    (roundUp r : ℚ) ≤ r + 1 / 2 ∧ r - 1 / 2 < roundUp r := by
  have h := floor_bounds (r := r + 1 / 2) (by linarith)
  change (roundUp r : ℚ) ≤ _ ∧ _ < (roundUp r : ℚ) + 1 at h
  exact ⟨h.1, by linarith [h.2]⟩

theorem roundUp_mono {r' : ℚ} (h : r ≤ r') : roundUp r ≤ roundUp r' :=
  Nat.floor_le_floor (by linarith)

theorem roundUp_natCast (n : Nat) : roundUp n = n := by
  rw [roundUp, Nat.floor_eq_iff (by positivity)]
  constructor <;> linarith

theorem round_eq_of_near {n : Nat} (hr : 0 ≤ r) (hlow : (n : ℚ) - 1 / 2 < r)
    (hhigh : r < n + 1 / 2) : roundUp r = n ∧ roundEven r = n := by
  have hup : roundUp r = n := by
    rw [roundUp, Nat.floor_eq_iff (by linarith)]
    constructor <;> linarith
  refine ⟨hup, ?_⟩
  rw [(roundEven_eq_roundUp_iff hr).mpr, hup]
  rintro ⟨htie, -⟩
  obtain ⟨hlow', hhigh'⟩ := floor_bounds hr
  generalize ⌊r⌋₊ = k at *
  have h1 : (n : ℚ) < k + 1 := by linarith
  have h2 : (k : ℚ) < n := by linarith
  have h1' : n < k + 1 := by exact_mod_cast h1
  have h2' : k < n := by exact_mod_cast h2
  omega

end Whole

/-! ## §2 Multiples -/

/-- The multiple of a unit that is nearest to `q`, the larger of two. -/
structure NearestMultiple (q unit : ℚ) (n : Int) : Prop where
  near : ∀ w : Int, |n * unit - q| ≤ |w * unit - q|
  tie : ∀ w : Int, |n * unit - q| = |w * unit - q| → w ≤ n

section Multiples

variable {q unit : ℚ} {n : Int}

/-- **The nearest multiple is `roundUp`.** -/
theorem nearestMultiple_roundUp (hq : 0 ≤ q) (hunit : 0 < unit) :
    NearestMultiple q unit (roundUp (q / unit)) := by
  obtain ⟨hhigh, hlow⟩ := roundUp_bounds (div_nonneg hq (le_of_lt hunit))
  generalize roundUp (q / unit) = n at *
  have hn : ((n : Int) : ℚ) = n := Int.cast_natCast n
  have h1 : (n : ℚ) * unit - q ≤ unit / 2 := by
    have := mul_le_mul_of_nonneg_right hhigh (le_of_lt hunit)
    rw [add_mul, div_mul_cancel₀ q (ne_of_gt hunit)] at this
    linarith
  have h2 : -(unit / 2) < (n : ℚ) * unit - q := by
    have := mul_lt_mul_of_pos_right hlow hunit
    rw [sub_mul, div_mul_cancel₀ q (ne_of_gt hunit)] at this
    linarith
  have hstep : ∀ w : Int, w < n → (w : ℚ) * unit + unit ≤ n * unit := by
    intro w hw
    have hle : (w : ℚ) + 1 ≤ n := by exact_mod_cast hw
    have := mul_le_mul_of_nonneg_right hle (le_of_lt hunit)
    rwa [add_mul, one_mul] at this
  have hstep' : ∀ w : Int, (n : Int) < w → (n : ℚ) * unit + unit ≤ w * unit := by
    intro w hw
    have hle : (n : ℚ) + 1 ≤ w := by exact_mod_cast hw
    have := mul_le_mul_of_nonneg_right hle (le_of_lt hunit)
    rwa [add_mul, one_mul] at this
  refine ⟨fun w => ?_, fun w htie => ?_⟩
  · rw [hn]
    rcases lt_trichotomy w n with hlt | rfl | hgt
    · have := hstep w hlt
      rw [abs_of_nonpos (a := (w : ℚ) * unit - q) (by linarith), abs_le]
      constructor <;> linarith
    · rw [hn]
    · have := hstep' w hgt
      rw [abs_of_nonneg (a := (w : ℚ) * unit - q) (by linarith), abs_le]
      constructor <;> linarith
  · rw [hn] at htie
    by_contra hgt
    have := hstep' w (not_le.mp hgt)
    rw [abs_of_nonneg (a := (w : ℚ) * unit - q) (by linarith)] at htie
    have habs : |(n : ℚ) * unit - q| ≤ unit / 2 := abs_le.mpr ⟨by linarith, h1⟩
    linarith

theorem NearestMultiple.unique {m : Int} (h : NearestMultiple q unit n)
    (h' : NearestMultiple q unit m) : n = m := by
  have heq : |(n : ℚ) * unit - q| = |m * unit - q| := le_antisymm (h.near m) (h'.near n)
  exact le_antisymm (h'.tie n heq.symm) (h.tie m heq)

end Multiples

/-! ## §3 Digits -/

/-- The decimal of `p` digits that is nearest to `q`, the larger of two. -/
structure NearestDigits (q : ℚ) (p n : Nat) (e : Int) : Prop where
  low : 10 ^ (p - 1) ≤ n
  high : n < 10 ^ p
  near : ∀ (n' : Nat) (e' : Int), 10 ^ (p - 1) ≤ n' → n' < 10 ^ p →
    |n * 10 ^ (e - p + 1) - q| ≤ |n' * 10 ^ (e' - p + 1) - q|
  tie : ∀ (n' : Nat) (e' : Int), 10 ^ (p - 1) ≤ n' → n' < 10 ^ p →
    |n * 10 ^ (e - p + 1) - q| = |n' * 10 ^ (e' - p + 1) - q| →
    (n' : ℚ) * 10 ^ (e' - p + 1) ≤ n * 10 ^ (e - p + 1)

/-- The number in units of its `p`-th digit. -/
def scaledTo (p : Nat) (q : ℚ) : ℚ := q * 10 ^ ((p : Int) - 1 - Int.log 10 q)

/-- A rounded number of `p` digits, or the next power of 10, with its exponent. -/
def carried (p n : Nat) (e : Int) : Nat × Int :=
  if n < 10 ^ p then (n, e) else (10 ^ (p - 1), e + 1)

section Digits

variable {q : ℚ} {p : Nat}

theorem scaledTo_bounds (hq : 0 < q) (hp : 1 ≤ p) :
    (10 : ℚ) ^ (p - 1) ≤ scaledTo p q ∧ scaledTo p q < 10 ^ p := by
  have hlow : (10 : ℚ) ^ Int.log 10 q ≤ q := by
    have := Int.zpow_log_le_self (b := 10) (by decide) hq
    simpa using this
  have hhigh : q < (10 : ℚ) ^ (Int.log 10 q + 1) := by
    have := Int.lt_zpow_succ_log_self (b := 10) (by decide) q
    simpa using this
  have hpos : (0 : ℚ) < 10 ^ ((p : Int) - 1 - Int.log 10 q) := zpow_pos (by norm_num) _
  have hten : (10 : ℚ) ≠ 0 := by norm_num
  constructor
  · calc (10 : ℚ) ^ (p - 1) = 10 ^ Int.log 10 q * 10 ^ ((p : Int) - 1 - Int.log 10 q) := by
          rw [← zpow_add₀ hten, ← zpow_natCast]
          congr 1
          omega
      _ ≤ scaledTo p q := mul_le_mul_of_nonneg_right hlow (le_of_lt hpos)
  · calc scaledTo p q < 10 ^ (Int.log 10 q + 1) * 10 ^ ((p : Int) - 1 - Int.log 10 q) :=
          mul_lt_mul_of_pos_right hhigh hpos
      _ = 10 ^ p := by
          rw [← zpow_add₀ hten, ← zpow_natCast]
          congr 1
          omega

theorem round_bounds {r : ℚ} {j k : Nat} (hlow : (j : ℚ) ≤ r) (hhigh : r < k) :
    (j ≤ roundUp r ∧ roundUp r ≤ k) ∧ j ≤ roundEven r ∧ roundEven r ≤ k := by
  have hr : 0 ≤ r := le_trans (Nat.cast_nonneg j) hlow
  have hup : j ≤ roundUp r ∧ roundUp r ≤ k := by
    have h1 := roundUp_mono hlow
    have h2 := roundUp_mono (le_of_lt hhigh)
    rw [roundUp_natCast] at h1 h2
    exact ⟨h1, h2⟩
  refine ⟨hup, ?_⟩
  by_cases htie : EvenTie r
  · rw [(roundEven_of_evenTie hr htie).1]
    exact ⟨Nat.le_floor hlow, Nat.le_of_lt ((Nat.floor_lt hr).mpr hhigh)⟩
  · rw [(roundEven_eq_roundUp_iff hr).mpr htie]
    exact hup

theorem carried_value (n : Nat) (e : Int) (hp : 1 ≤ p) (hn : n ≤ 10 ^ p) :
    ((carried p n e).1 : ℚ) * 10 ^ ((carried p n e).2 - p + 1) = n * 10 ^ (e - p + 1) := by
  unfold carried
  split
  case isTrue => rfl
  case isFalse h =>
    obtain rfl : n = 10 ^ p := Nat.le_antisymm hn (Nat.not_lt.mp h)
    have hten : (10 : ℚ) ≠ 0 := by norm_num
    push_cast
    rw [← zpow_natCast, ← zpow_natCast, ← zpow_add₀ hten, ← zpow_add₀ hten]
    congr 1
    omega

theorem carried_bounds {n : Nat} (e : Int) (hp : 1 ≤ p) (hn : 10 ^ (p - 1) ≤ n) :
    10 ^ (p - 1) ≤ (carried p n e).1 ∧ (carried p n e).1 < 10 ^ p := by
  unfold carried
  split
  case isTrue h => exact ⟨hn, h⟩
  case isFalse => exact ⟨Nat.le_refl _, Nat.pow_lt_pow_right (by decide) (by omega)⟩

/-- **The nearest decimal of `p` digits** is `roundUp` at the `p`-th digit. -/
theorem nearestDigits_carried (hq : 0 < q) (hp : 1 ≤ p) :
    NearestDigits q p (carried p (roundUp (scaledTo p q)) (Int.log 10 q)).1
      (carried p (roundUp (scaledTo p q)) (Int.log 10 q)).2 := by
  obtain ⟨hlow, hhigh⟩ := scaledTo_bounds hq hp
  have hten : (10 : ℚ) ≠ 0 := by norm_num
  obtain ⟨⟨hnlow, hnhigh⟩, -⟩ := round_bounds (j := 10 ^ (p - 1)) (k := 10 ^ p)
    (by exact_mod_cast hlow) (by exact_mod_cast hhigh)
  have hvalue := carried_value (roundUp (scaledTo p q)) (Int.log 10 q) hp hnhigh
  obtain ⟨hclow, hchigh⟩ := carried_bounds (Int.log 10 q) hp hnlow
  have hunit : (0 : ℚ) < 10 ^ (Int.log 10 q - p + 1) := zpow_pos (by norm_num) _
  have hdiv : q / 10 ^ (Int.log 10 q - p + 1) = scaledTo p q := by
    rw [scaledTo, div_eq_mul_inv, ← zpow_neg]
    congr 2
    ring
  have hnear := nearestMultiple_roundUp (le_of_lt hq) hunit
  rw [hdiv] at hnear
  -- another decimal is a multiple too, or lies below the decade
  have hothers : ∀ (n' : Nat) (e' : Int), n' < 10 ^ p →
      (∃ w : Int, (n' : ℚ) * 10 ^ (e' - p + 1) = w * 10 ^ (Int.log 10 q - p + 1)) ∨
        (n' : ℚ) * 10 ^ (e' - p + 1) < (10 ^ (p - 1) : Nat) * 10 ^ (Int.log 10 q - p + 1) := by
    intro n' e' hn'
    rcases le_or_gt (Int.log 10 q) e' with hle | hgt
    · refine .inl ⟨n' * 10 ^ (e' - Int.log 10 q).toNat, ?_⟩
      push_cast
      rw [mul_assoc, ← zpow_natCast, ← zpow_add₀ hten]
      congr 2
      omega
    · refine .inr ?_
      have hlt : (n' : ℚ) < 10 ^ p := by exact_mod_cast hn'
      calc (n' : ℚ) * 10 ^ (e' - p + 1) < 10 ^ p * 10 ^ (e' - p + 1) :=
            mul_lt_mul_of_pos_right hlt (zpow_pos (by norm_num) _)
        _ = 10 ^ (e' + 1) := by
            rw [← zpow_natCast, ← zpow_add₀ hten]
            congr 1
            ring
        _ ≤ 10 ^ Int.log 10 q := zpow_le_zpow_right₀ (by norm_num) hgt
        _ = (10 ^ (p - 1) : Nat) * 10 ^ (Int.log 10 q - p + 1) := by
            push_cast
            rw [← zpow_natCast, ← zpow_add₀ hten]
            congr 1
            omega
  have hbase : ((10 ^ (p - 1) : Nat) : ℚ) * 10 ^ (Int.log 10 q - p + 1) ≤ q := by
    have := mul_le_mul_of_nonneg_right hlow (le_of_lt hunit)
    rw [← hdiv, div_mul_cancel₀ q (ne_of_gt hunit)] at this
    push_cast
    exact this
  have hself := hnear.near
  have htied := hnear.tie
  rw [Int.cast_natCast] at hself htied
  have hpow := hself ((10 ^ (p - 1) : Nat) : Int)
  rw [Int.cast_natCast] at hpow
  refine ⟨hclow, hchigh, fun n' e' _ hn' => ?_, fun n' e' _ hn' htie => ?_⟩
  · rw [hvalue]
    rcases hothers n' e' hn' with ⟨w, hw⟩ | hbelow
    · rw [hw]
      exact hself w
    · refine hpow.trans ?_
      rw [abs_of_nonpos (by linarith), abs_of_nonpos (by linarith)]
      linarith
  · rw [hvalue] at htie ⊢
    rcases hothers n' e' hn' with ⟨w, hw⟩ | hbelow
    · rw [hw] at htie ⊢
      have hle := htied w htie
      have hle' : (w : ℚ) ≤ (roundUp (scaledTo p q) : ℚ) := by exact_mod_cast hle
      exact mul_le_mul_of_nonneg_right hle' (le_of_lt hunit)
    · exfalso
      rw [htie, abs_of_nonpos (by linarith), abs_of_nonpos (by linarith)] at hpow
      linarith

theorem digits_unique {n n' : Nat} {e e' : Int} (hp : 1 ≤ p) (hn : 10 ^ (p - 1) ≤ n)
    (hn10 : n < 10 ^ p) (hn' : 10 ^ (p - 1) ≤ n') (hn10' : n' < 10 ^ p)
    (h : (n : ℚ) * 10 ^ (e - p + 1) = n' * 10 ^ (e' - p + 1)) : n = n' ∧ e = e' := by
  have hten : (10 : ℚ) ≠ 0 := by norm_num
  have hexp : ∀ {m m' : Nat} {i i' : Int}, 10 ^ (p - 1) ≤ m → m' < 10 ^ p →
      (m : ℚ) * 10 ^ (i - p + 1) = m' * 10 ^ (i' - p + 1) → i ≤ i' := by
    intro m m' i i' hm hm' heq
    by_contra hgt
    have hlow : (10 : ℚ) ^ i ≤ m * 10 ^ (i - p + 1) := by
      have hle : (10 : ℚ) ^ (p - 1) ≤ m := by exact_mod_cast hm
      calc (10 : ℚ) ^ i = 10 ^ (p - 1) * 10 ^ (i - p + 1) := by
            rw [← zpow_natCast, ← zpow_add₀ hten]
            congr 1
            omega
        _ ≤ m * 10 ^ (i - p + 1) :=
            mul_le_mul_of_nonneg_right hle (le_of_lt (zpow_pos (by norm_num) _))
    have hhigh : (m' : ℚ) * 10 ^ (i' - p + 1) < 10 ^ (i' + 1) := by
      have hlt : (m' : ℚ) < 10 ^ p := by exact_mod_cast hm'
      calc (m' : ℚ) * 10 ^ (i' - p + 1) < 10 ^ p * 10 ^ (i' - p + 1) :=
            mul_lt_mul_of_pos_right hlt (zpow_pos (by norm_num) _)
        _ = 10 ^ (i' + 1) := by
            rw [← zpow_natCast, ← zpow_add₀ hten]
            congr 1
            ring
    have hpow : (10 : ℚ) ^ (i' + 1) ≤ 10 ^ i := zpow_le_zpow_right₀ (by norm_num) (by omega)
    linarith
  obtain rfl : e = e' := le_antisymm (hexp hn hn10' h) (hexp hn' hn10 h.symm)
  have hne : (10 : ℚ) ^ (e - p + 1) ≠ 0 := zpow_ne_zero _ hten
  exact ⟨by exact_mod_cast mul_right_cancel₀ hne h, rfl⟩

theorem NearestDigits.unique {n n' : Nat} {e e' : Int} (hp : 1 ≤ p) (h : NearestDigits q p n e)
    (h' : NearestDigits q p n' e') : n = n' ∧ e = e' := by
  have heq := le_antisymm (h.near n' e' h'.low h'.high) (h'.near n e h.low h.high)
  have hvalue := le_antisymm (h'.tie n e h.low h.high heq.symm) (h.tie n' e' h'.low h'.high heq)
  exact digits_unique hp h.low h.high h'.low h'.high hvalue

end Digits

end Lib.Decimal
