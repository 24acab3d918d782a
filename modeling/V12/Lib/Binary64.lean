/-
V12.Lib.Binary64 — IEEE 754 doubles as bit patterns.

The fields of a pattern, its exact value, and the whole number left when the
fraction is cut off. Magnitudes are counted in units of 2⁻¹⁰⁷⁴, the smallest
positive double, so that everything but `value` is arithmetic on naturals.
-/
import Mathlib.Data.Rat.Floor
import Mathlib.Tactic.NormNum
import Mathlib.Tactic.Ring

namespace Lib.Binary64

variable {m : Nat} {bits : BitVec 64}

/-! ## §1 Fields -/

def negative (bits : BitVec 64) : Bool := bits.msb

def exponent (bits : BitVec 64) : Nat := bits.toNat / 2 ^ 52 % 2 ^ 11

def fraction (bits : BitVec 64) : Nat := bits.toNat % 2 ^ 52

def IsFinite (bits : BitVec 64) : Prop := exponent bits ≠ 2047

instance (bits : BitVec 64) : Decidable (IsFinite bits) := inferInstanceAs (Decidable (_ ≠ _))

/-- The fraction with its hidden bit, which subnormals do not have. -/
def significand (bits : BitVec 64) : Nat :=
  if exponent bits = 0 then fraction bits else 2 ^ 52 + fraction bits

def units (bits : BitVec 64) : Nat := significand bits * 2 ^ (exponent bits - 1)

def pack (neg : Bool) (exp frac : Nat) : BitVec 64 :=
  BitVec.ofNat 64 ((if neg then 2 ^ 63 else 0) + exp * 2 ^ 52 + frac)

section Pack

variable {neg : Bool} {exp frac : Nat}

theorem toNat_pack (hexp : exp < 2 ^ 11) (hfrac : frac < 2 ^ 52) :
    (pack neg exp frac).toNat = (if neg then 2 ^ 63 else 0) + exp * 2 ^ 52 + frac := by
  rw [pack, BitVec.toNat_ofNat]
  cases neg <;> simp only [if_true, if_false, Bool.false_eq_true] <;> omega

@[simp] theorem negative_pack (hexp : exp < 2 ^ 11) (hfrac : frac < 2 ^ 52) :
    negative (pack neg exp frac) = neg := by
  rw [negative, BitVec.msb_eq_decide, toNat_pack hexp hfrac]
  cases neg <;> simp only [if_true, if_false, Bool.false_eq_true] <;> simp <;> omega

@[simp] theorem exponent_pack (hexp : exp < 2 ^ 11) (hfrac : frac < 2 ^ 52) :
    exponent (pack neg exp frac) = exp := by
  rw [exponent, toNat_pack hexp hfrac]
  cases neg <;> simp only [if_true, if_false, Bool.false_eq_true] <;> omega

@[simp] theorem fraction_pack (hexp : exp < 2 ^ 11) (hfrac : frac < 2 ^ 52) :
    fraction (pack neg exp frac) = frac := by
  rw [fraction, toNat_pack hexp hfrac]
  cases neg <;> simp only [if_true, if_false, Bool.false_eq_true] <;> omega

end Pack

/-! ## §2 Values -/

def unitsPerOne : Nat := 2 ^ 1074

theorem unitsPerOne_pos : 0 < unitsPerOne := Nat.pow_pos Nat.two_pos

def value (bits : BitVec 64) : ℚ :=
  (if negative bits then -(units bits : ℚ) else units bits) / unitsPerOne

def truncate (q : ℚ) : Int := if q < 0 then ⌈q⌉ else ⌊q⌋

/-- `value` without its fraction. -/
def trunc (bits : BitVec 64) : Int :=
  if negative bits then -(units bits / unitsPerOne : Nat) else (units bits / unitsPerOne : Nat)

def IsWhole (bits : BitVec 64) : Prop := units bits % unitsPerOne = 0

instance (bits : BitVec 64) : Decidable (IsWhole bits) := inferInstanceAs (Decidable (_ = _))

theorem floor_units (u : Nat) : ⌊(u : ℚ) / unitsPerOne⌋ = (u / unitsPerOne : Nat) := by
  have h := Rat.floor_intCast_div_natCast (u : Int) unitsPerOne
  push_cast at h ⊢
  exact h

theorem truncate_value (bits : BitVec 64) : truncate (value bits) = trunc bits := by
  have hunits : (0 : ℚ) ≤ (units bits : ℚ) / unitsPerOne := by positivity
  unfold truncate value trunc
  by_cases hneg : negative bits = true
  · simp only [hneg, if_true, neg_div]
    split
    case isTrue => rw [Int.ceil_neg, floor_units]
    case isFalse hle =>
      -- a negative zero
      have hzero : (units bits : ℚ) / unitsPerOne = 0 := by linarith
      have hfloor := floor_units (units bits)
      rw [hzero, Int.floor_zero] at hfloor
      rw [hzero, neg_zero, Int.floor_zero, ← hfloor, neg_zero]
  · simp only [hneg, Bool.false_eq_true, if_false]
    rw [if_neg (not_lt.mpr hunits), floor_units]

/-! ## §3 Whole numbers -/

theorem units_pack_whole (hm : m ≠ 0) (hlt : m < 2 ^ 53) (neg : Bool) :
    let bits := pack neg (1023 + Nat.log2 m) ((m - 2 ^ Nat.log2 m) * 2 ^ (52 - Nat.log2 m))
    negative bits = neg ∧ IsFinite bits ∧ units bits = m * unitsPerOne := by
  have hlow : 2 ^ Nat.log2 m ≤ m := Nat.log2_self_le hm
  have hhigh : m < 2 ^ (Nat.log2 m + 1) := Nat.lt_log2_self
  have he : Nat.log2 m < 53 := (Nat.log2_lt hm).mpr hlt
  generalize Nat.log2 m = e at hlow hhigh he
  have hsplit : 2 ^ e * 2 ^ (52 - e) = 2 ^ 52 := by
    rw [← Nat.pow_add]
    congr 1
    omega
  have hfrac : (m - 2 ^ e) * 2 ^ (52 - e) < 2 ^ 52 := by
    rw [← hsplit]
    refine Nat.mul_lt_mul_of_pos_right ?_ (Nat.two_pow_pos _)
    rw [Nat.pow_succ] at hhigh
    omega
  have hexp : 1023 + e < 2 ^ 11 := by omega
  intro bits
  have hexponent : exponent bits = 1023 + e := exponent_pack hexp hfrac
  refine ⟨negative_pack hexp hfrac, ?_, ?_⟩
  · rw [IsFinite, hexponent]
    omega
  · have hfraction : fraction bits = (m - 2 ^ e) * 2 ^ (52 - e) := fraction_pack hexp hfrac
    have hsignificand : significand bits = m * 2 ^ (52 - e) := by
      rw [significand, hexponent, if_neg (by omega), hfraction, ← hsplit, ← Nat.add_mul]
      congr 1
      omega
    rw [units, hsignificand, hexponent, unitsPerOne, Nat.mul_assoc, ← Nat.pow_add]
    congr 2
    omega

theorem value_of_units (h : units bits = m * unitsPerOne) :
    value bits = if negative bits then -(m : ℚ) else m := by
  have hne : (unitsPerOne : ℚ) ≠ 0 := Nat.cast_ne_zero.mpr (Nat.ne_of_gt unitsPerOne_pos)
  unfold value
  rw [h, Nat.cast_mul]
  split
  · rw [neg_div, mul_div_cancel_right₀ _ hne]
  · rw [mul_div_cancel_right₀ _ hne]

theorem trunc_of_units (h : units bits = m * unitsPerOne) :
    trunc bits = if negative bits then -(m : Int) else m := by
  rw [trunc, h, Nat.mul_div_cancel _ unitsPerOne_pos]

theorem isWhole_of_units (h : units bits = m * unitsPerOne) :
    IsWhole bits := by
  rw [IsWhole, h, Nat.mul_mod_left]

end Lib.Binary64
