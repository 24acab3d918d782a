/-
V12.Lib.BitPack — packing fixed-width fields into machine words.

`place k m v` is the field `v` widened to `m` bits and shifted to bit
offset `k`; `field k n w` reads `n` bits of `w` back from offset `k`. A field
reads back what was placed at its own offset, and zero from a field placed
elsewhere; masked in-place updates are `(w &&& mask) ||| v`.
-/
import Mathlib.Tactic.Common
import Mathlib.Data.Nat.Bitwise

namespace Lib

variable {m n : Nat}
variable {k : Nat}

/-- The field `v`, widened to `m` bits, at bit offset `k`. -/
def place (k m : Nat) (v : BitVec n) : BitVec m := v.setWidth m <<< k

/-- The `n` bits of `w` at offset `k`. -/
def field (k n : Nat) (w : BitVec m) : BitVec n := (w >>> k).setWidth n

theorem getLsbD_place (k : Nat) (v : BitVec n) (i : Nat) :
    (place k m v).getLsbD i = (decide (i < m) && (decide (k ≤ i) && v.getLsbD (i - k))) := by
  simp only [place, BitVec.getLsbD_shiftLeft, BitVec.getLsbD_setWidth]
  grind

theorem getLsbD_field (k : Nat) (w : BitVec m) (i : Nat) :
    (field k n w).getLsbD i = (decide (i < n) && w.getLsbD (k + i)) := by
  simp only [field, BitVec.getLsbD_setWidth, BitVec.getLsbD_ushiftRight]

theorem field_or (k : Nat) (x y : BitVec m) :
    field k n (x ||| y) = field k n x ||| field k n y := by
  apply BitVec.eq_of_getLsbD_eq
  intro i _
  simp only [getLsbD_field, BitVec.getLsbD_or, Bool.and_or_distrib_left]

theorem field_place_self (v : BitVec n) (h : k + n ≤ m) :
    field k n (place k m v) = v := by
  apply BitVec.eq_of_getLsbD_eq
  intro i hi
  simp only [getLsbD_field, getLsbD_place]
  simp [hi, show k + i < m by omega]

theorem field_place_disjoint {k' n' : Nat} (v : BitVec n') (h : k' + n' ≤ k ∨ k + n ≤ k') :
    field k n (place k' m v) = 0#n := by
  apply BitVec.eq_of_getLsbD_eq
  intro i hi
  simp only [getLsbD_field, getLsbD_place]
  rcases h with h | h
  · simp [BitVec.getLsbD_of_ge v (k + i - k') (by omega)]
  · simp [show ¬ k' ≤ k + i by omega]

theorem place_field_pair {a b : Nat} (h : m = a + b) (w : BitVec m) :
    place b m (field b a w) ||| place 0 m (field 0 b w) = w := by
  apply BitVec.eq_of_getLsbD_eq
  intro i hi
  simp only [BitVec.getLsbD_or, getLsbD_place, getLsbD_field]
  rcases Nat.lt_or_ge i b with hb | hb
  · simp [hi, hb, show ¬ b ≤ i by omega]
  · simp [hi, hb, show ¬ i < b by omega, show i - b < a by omega, show b + (i - b) = i by omega]

theorem and_place_allOnes (w : BitVec m) :
    w &&& place k m (BitVec.allOnes n) = place k m (field k n w) := by
  apply BitVec.eq_of_getLsbD_eq
  intro i hi
  simp only [BitVec.getLsbD_and, getLsbD_place, getLsbD_field, BitVec.getLsbD_allOnes]
  by_cases hk : k ≤ i
  · simp only [hi, hk, show k + (i - k) = i by omega, decide_true, Bool.true_and]
    exact Bool.and_comm _ _
  · simp [hk]

theorem field_and_of_ones (w mask : BitVec m) (h : ∀ i < n, mask.getLsbD (k + i) = true) :
    field k n (w &&& mask) = field k n w := by
  apply BitVec.eq_of_getLsbD_eq
  intro i hi
  simp [getLsbD_field, h i hi]

theorem field_and_of_zeros (w mask : BitVec m) (h : ∀ i < n, mask.getLsbD (k + i) = false) :
    field k n (w &&& mask) = 0#n := by
  apply BitVec.eq_of_getLsbD_eq
  intro i hi
  simp [getLsbD_field, h i hi]

/-! ## Numbers -/

theorem toNat_field (k : Nat) (w : BitVec m) : (field k n w).toNat = w.toNat / 2 ^ k % 2 ^ n := by
  rw [field, BitVec.toNat_setWidth, BitVec.toNat_ushiftRight, Nat.shiftRight_eq_div_pow]

theorem toNat_place (v : BitVec n) (h : k + n ≤ m) :
    (place k m v).toNat = v.toNat * 2 ^ k := by
  have hlt : v.toNat * 2 ^ k < 2 ^ m := by
    have hv := Nat.mul_lt_mul_of_pos_right v.isLt (Nat.two_pow_pos k)
    rw [← Nat.pow_add, Nat.add_comm] at hv
    exact Nat.lt_of_lt_of_le hv (Nat.pow_le_pow_right (by decide) h)
  have hwidth : v.toNat < 2 ^ m :=
    Nat.lt_of_lt_of_le v.isLt (Nat.pow_le_pow_right (by decide) (by omega))
  rw [place, BitVec.toNat_shiftLeft, BitVec.toNat_setWidth, Nat.mod_eq_of_lt hwidth,
    Nat.shiftLeft_eq, Nat.mod_eq_of_lt hlt]

theorem toNat_and_ones (w : BitVec m) (h : k + n ≤ m) :
    (w &&& place k m (BitVec.allOnes n)).toNat = w.toNat / 2 ^ k % 2 ^ n * 2 ^ k := by
  rw [and_place_allOnes w, toNat_place _ h, toNat_field]

end Lib
