/-
V12.Lib.DoubleValue — arithmetic of doubles on their values.

A double is NaN, an infinity or a number; the two zeros are one number. A
result is the exact one, rounded (`roundRat`), with an infinity for what is too
large. Whole numbers up to 2⁵³ are exact, and so is the floor of a quotient
by a small divisor (`floor_roundRat`).
-/
import Mathlib.Algebra.Order.Field.Rat
import V12.Lib.Rounding

namespace Lib.Binary64

/-! ## §1 Rounding rationals -/

/-- The number nearest to `q` with 53 bits. -/
def roundRat (q : ℚ) : ℚ :=
  let u : ℚ := roundUnits (q.num.natAbs * unitsPerOne) q.den / unitsPerOne
  if q < 0 then -u else u

def Representable (q : ℚ) : Prop := ∃ u : Nat, IsFloat u ∧ |q| * unitsPerOne = u

theorem units_ne_zero : (unitsPerOne : ℚ) ≠ 0 := Nat.cast_ne_zero.mpr (Nat.ne_of_gt unitsPerOne_pos)

theorem units_pos : (0 : ℚ) < unitsPerOne := Nat.cast_pos.mpr unitsPerOne_pos

theorem Representable.neg {q : ℚ} (h : Representable q) : Representable (-q) := by
  obtain ⟨u, hu, hq⟩ := h
  exact ⟨u, hu, by rw [abs_neg, hq]⟩

theorem representable_div {m : ℤ} {k : Nat} (hm : m.natAbs ≤ 2 ^ 53) (hk : k ≤ 1074) :
    Representable (m / 2 ^ k) := by
  refine ⟨m.natAbs * 2 ^ (1074 - k), isFloat_mul_pow hm, ?_⟩
  have hsplit : (unitsPerOne : ℚ) = 2 ^ k * 2 ^ (1074 - k) := by
    rw [← pow_add, Nat.add_sub_cancel' hk, unitsPerOne, Nat.cast_pow, Nat.cast_ofNat]
  rw [abs_div, hsplit, abs_of_pos (show (0 : ℚ) < 2 ^ k by positivity), Nat.cast_mul,
    Nat.cast_natAbs, Int.cast_abs, Nat.cast_pow, Nat.cast_ofNat]
  field_simp

theorem representable_intCast {n : ℤ} (h : n.natAbs ≤ 2 ^ 53) : Representable n := by
  have hdiv := representable_div h (Nat.zero_le 1074)
  rwa [pow_zero, div_one] at hdiv

theorem roundRat_of_nonneg {q : ℚ} (hq : 0 ≤ q) :
    roundRat q = roundUnits (q.num.natAbs * unitsPerOne) q.den / unitsPerOne :=
  if_neg (not_lt.mpr hq)

theorem roundUnits_zero (d : Nat) : roundUnits 0 d = 0 := by
  have hhalf : ∀ d, halfEven 0 d = 0 := fun d => by
    unfold halfEven
    rw [Nat.zero_mod, Nat.zero_div, if_pos (by omega)]
  rw [roundUnits, hhalf, Nat.zero_mul]

theorem roundRat_neg (q : ℚ) : roundRat (-q) = -roundRat q := by
  simp only [roundRat, Rat.neg_num, Rat.neg_den, Int.natAbs_neg]
  rcases lt_trichotomy q 0 with hq | rfl | hq
  · rw [if_pos hq, if_neg (by linarith), neg_neg]
  · rw [neg_zero, if_neg (lt_irrefl 0), Rat.num_zero, Int.natAbs_zero, Nat.zero_mul, roundUnits_zero,
      Nat.cast_zero, zero_div, neg_zero]
  · rw [if_pos (by linarith), if_neg (by linarith)]

theorem roundRat_nearest_of_nonneg {v : ℚ} (hv : Representable v) {q : ℚ} (hq : 0 ≤ q) :
    |roundRat q - q| ≤ |v - q| := by
  obtain ⟨w, hw, hvw⟩ := hv
  have hden : (0 : ℚ) < q.den := Nat.cast_pos.mpr q.den_pos
  have hnear := (roundUnits_nearest (n := q.num.natAbs * unitsPerOne) q.den_pos hw).1
  have hnum : (q.num.natAbs : ℚ) = q * q.den := by
    rw [Nat.cast_natAbs, Int.cast_abs, abs_of_nonneg (by exact_mod_cast Rat.num_nonneg.mpr hq),
      Rat.mul_den_eq_num]
  -- everything in units, over the denominator
  have hscale (x : ℚ) : |x / unitsPerOne - q| =
      |q * q.den * unitsPerOne - q.den * x| / (q.den * unitsPerOne) := by
    have hfrac : x / unitsPerOne - q =
        -(q * q.den * unitsPerOne - q.den * x) / (q.den * unitsPerOne) := by
      have := units_ne_zero
      field_simp
      ring
    rw [hfrac, abs_div, abs_neg, abs_of_pos (mul_pos hden units_pos)]
  have hw' : |v| = w / unitsPerOne := by
    rw [← hvw, mul_div_cancel_right₀ _ units_ne_zero]
  have hle : |roundRat q - q| ≤ |(|v|) - q| := by
    rw [roundRat_of_nonneg hq, hw', hscale, hscale]
    refine div_le_div_of_nonneg_right ?_ (le_of_lt (mul_pos hden units_pos))
    rw [← hnum]
    exact_mod_cast hnear
  refine hle.trans ?_
  have habs := abs_abs_sub_abs_le v q
  rwa [abs_of_nonneg hq] at habs

/-- **Rounding gives a nearest number**. -/
theorem roundRat_nearest {v : ℚ} (hv : Representable v) (q : ℚ) :
    |roundRat q - q| ≤ |v - q| := by
  rcases le_total 0 q with hq | hq
  · exact roundRat_nearest_of_nonneg hv hq
  · have hneg := roundRat_nearest_of_nonneg hv.neg (neg_nonneg.mpr hq)
    rwa [roundRat_neg, neg_sub_neg, neg_sub_neg, abs_sub_comm q, abs_sub_comm q] at hneg

theorem roundRat_eq {q : ℚ} (hq : Representable q) : roundRat q = q := by
  have hnear := roundRat_nearest hq q
  rw [sub_self, abs_zero, abs_nonpos_iff, sub_eq_zero] at hnear
  exact hnear

theorem le_roundRat {f q : ℚ} (hf : Representable f) (h : f ≤ q) : f ≤ roundRat q := by
  have hnear := roundRat_nearest hf q
  rw [abs_of_nonpos (by linarith : f - q ≤ 0)] at hnear
  linarith [neg_abs_le (roundRat q - q)]

theorem roundRat_le {f q : ℚ} (hf : Representable f) (h : q ≤ f) : roundRat q ≤ f := by
  have hnear := roundRat_nearest hf q
  rw [abs_of_nonneg (by linarith : 0 ≤ f - q)] at hnear
  linarith [le_abs_self (roundRat q - q)]

theorem floor_roundRat {a : ℤ} {b k : Nat} (hb : 0 < b) (hsmall : b < 2 ^ (k + 1)) (hk : k ≤ 53)
    (hlow : -(2 : ℤ) ^ (53 - k) ≤ a / b) (hhigh : a / b + 1 ≤ (2 : ℤ) ^ (53 - k)) :
    ⌊roundRat (a / b : ℚ)⌋ = a / b := by
  have hmod := Int.mul_ediv_add_emod a b
  have hmod0 := Int.emod_nonneg a (Int.natCast_ne_zero.mpr (Nat.ne_of_gt hb))
  have hmod1 := Int.emod_lt_of_pos a (Int.natCast_pos.mpr hb)
  generalize a / (b : ℤ) = n at *
  have hb' : (0 : ℚ) < b := Nat.cast_pos.mpr hb
  have hle : (n : ℚ) ≤ a / b := by
    rw [le_div_iff₀ hb']
    have : n * b ≤ a := by rw [Int.mul_comm]; omega
    exact_mod_cast this
  have hgap : (a / b : ℚ) + 1 / b ≤ n + 1 := by
    rw [← add_div, div_le_iff₀ hb']
    have : a + 1 ≤ (n + 1) * b := by rw [Int.add_mul, Int.one_mul, Int.mul_comm n]; omega
    exact_mod_cast this
  have hpow : (2 : ℤ) ^ (53 - k) ≤ 2 ^ 53 := pow_le_pow_right₀ (by norm_num) (by omega)
  have hn : Representable (n : ℚ) := representable_intCast (by omega)
  -- one step below the next whole number
  have hstep : Representable ((n : ℚ) + 1 - 1 / 2 ^ k) := by
    have hsplit : (2 : ℤ) ^ (53 - k) * 2 ^ k = 2 ^ 53 := by rw [← pow_add, Nat.sub_add_cancel hk]
    have hone : (1 : ℤ) ≤ 2 ^ k := one_le_pow₀ (by norm_num)
    have hup : (n + 1) * 2 ^ k ≤ 2 ^ (53 - k) * 2 ^ k :=
      mul_le_mul_of_nonneg_right hhigh (by positivity)
    have hdown : -(2 : ℤ) ^ (53 - k) * 2 ^ k ≤ n * 2 ^ k :=
      mul_le_mul_of_nonneg_right hlow (by positivity)
    have hbound : ((n + 1) * 2 ^ k - 1).natAbs ≤ 2 ^ 53 := by
      rw [neg_mul, hsplit] at hdown
      rw [hsplit] at hup
      rw [add_mul, one_mul] at hup ⊢
      omega
    have hdiv := representable_div hbound (k := k) (by omega)
    have hsame : (((n + 1) * 2 ^ k - 1 : ℤ) : ℚ) / 2 ^ k = (n : ℚ) + 1 - 1 / 2 ^ k := by
      push_cast
      field_simp
    rwa [hsame] at hdiv
  rw [Int.floor_eq_iff]
  refine ⟨le_roundRat hn hle, ?_⟩
  by_contra hge
  rw [not_lt] at hge
  have hpos : (0 : ℚ) < 1 / 2 ^ k := by positivity
  -- the quotient lies above the step, and further from the next whole number
  have habove : (n : ℚ) + 1 - 1 / 2 ^ k < a / b := by
    by_contra hbelow
    linarith [roundRat_le hstep (not_lt.mp hbelow)]
  have hnear := roundRat_nearest hstep (a / b : ℚ)
  have hb'' : (0 : ℚ) < 1 / b := by positivity
  rw [abs_of_nonneg (by linarith : (0 : ℚ) ≤ roundRat (a / b) - a / b),
    abs_of_neg (by linarith : (n : ℚ) + 1 - 1 / 2 ^ k - a / b < 0)] at hnear
  have hwide : 2 * (1 / b : ℚ) ≤ 1 / 2 ^ k := by linarith
  have hlarge : (2 : ℚ) ^ (k + 1) ≤ b := by
    rw [mul_one_div, div_le_div_iff₀ hb' (by positivity)] at hwide
    rw [pow_succ]
    linarith
  have : 2 ^ (k + 1) ≤ b := by exact_mod_cast hlarge
  omega

theorem truncate_intCast (z : ℤ) : truncate (z : ℚ) = z := by
  unfold truncate
  split
  · exact Int.ceil_intCast z
  · exact Int.floor_intCast z

/-! ## §2 Doubles -/

/-- A double as its value. -/
inductive Double where
  | nan
  | infinite (negative : Bool)
  | finite (q : ℚ)
  deriving DecidableEq

namespace Double

def limit : ℚ := 2 ^ 1024

def ofRat (q : ℚ) : Double :=
  if |roundRat q| < limit then .finite (roundRat q) else .infinite (q < 0)

def ofInt (n : ℤ) : Double := .finite n

def isFinite : Double → Bool
  | .finite _ => true
  | _ => false

def neg : Double → Double
  | .nan => .nan
  | .infinite s => .infinite !s
  | .finite q => .finite (-q)

def add : Double → Double → Double
  | .nan, _ | _, .nan => .nan
  | .infinite s, .infinite s' => if s = s' then .infinite s else .nan
  | .infinite s, .finite _ | .finite _, .infinite s => .infinite s
  | .finite a, .finite b => ofRat (a + b)

def sub (x y : Double) : Double := add x (neg y)

def scale (c : ℚ) : Double → Double
  | .finite a => ofRat (c * a)
  | x => x

def quot (x : Double) (d : ℚ) : Double :=
  match x with
  | .finite a => ofRat (a / d)
  | x => x

/-- The exact remainder by a positive number, with the sign of the dividend. -/
def rem (x : Double) (d : ℚ) : Double :=
  match x with
  | .finite a => .finite (a - d * truncate (a / d))
  | _ => .nan

def floor : Double → Double
  | .finite a => .finite ⌊a⌋
  | x => x

def trunc : Double → Double
  | .finite a => .finite (truncate a)
  | x => x

def lt : Double → Double → Bool
  | .nan, _ | _, .nan => false
  | .finite a, .finite b => a < b
  | .infinite s, .infinite s' => s && !s'
  | .infinite s, .finite _ => s
  | .finite _, .infinite s => !s

def le (x y : Double) : Bool := lt x y || x = y && x ≠ .nan

def toI64 : Double → ℤ
  | .nan => 0
  | .infinite s => if s then -2 ^ 63 else 2 ^ 63 - 1
  | .finite a => max (-2 ^ 63) (min (truncate a) (2 ^ 63 - 1))

def ofBits (bits : BitVec 64) : Double :=
  if IsFinite bits then .finite (value bits)
  else if fraction bits = 0 then .infinite (negative bits)
  else .nan

/-- A pattern of a double, of the positive zero for zero. -/
def toBits : Double → BitVec 64
  | .nan => Binary64.nan
  | .infinite s => infinity s
  | .finite q => nearest (q < 0) q.num.natAbs q.den

/-! ## §3 Whole numbers -/

section Whole

variable {a b : ℤ}

theorem intCast_lt_limit (h : a.natAbs ≤ 2 ^ 53) : |(a : ℚ)| < limit := by
  have hle : |(a : ℚ)| ≤ 2 ^ 53 := by
    rw [← Int.cast_abs, Int.abs_eq_natAbs]
    exact_mod_cast h
  exact hle.trans_lt (pow_lt_pow_right₀ (by norm_num) (by norm_num))

theorem ofRat_intCast (h : a.natAbs ≤ 2 ^ 53) : ofRat a = ofInt a := by
  unfold ofRat
  rw [roundRat_eq (representable_intCast h), if_pos (intCast_lt_limit h)]
  rfl

theorem add_ofInt (h : (a + b).natAbs ≤ 2 ^ 53) : (ofInt a).add (ofInt b) = ofInt (a + b) := by
  rw [← ofRat_intCast h]
  simp only [add, ofInt, Int.cast_add]

theorem sub_ofInt (h : (a - b).natAbs ≤ 2 ^ 53) : (ofInt a).sub (ofInt b) = ofInt (a - b) := by
  rw [← ofRat_intCast h]
  simp only [sub, neg, add, ofInt]
  rw [Int.cast_sub, sub_eq_add_neg]

theorem scale_ofInt (h : (b * a).natAbs ≤ 2 ^ 53) : (ofInt a).scale b = ofInt (b * a) := by
  rw [← ofRat_intCast h]
  simp only [scale, ofInt, Int.cast_mul]

theorem lt_ofInt : (ofInt a).lt (ofInt b) = decide (a < b) := by
  simp only [lt, ofInt, Int.cast_lt]

theorem le_ofInt : (ofInt a).le (ofInt b) = decide (a ≤ b) := by
  unfold le
  rw [lt_ofInt, Bool.eq_iff_iff]
  simp only [ofInt, Bool.or_eq_true, decide_eq_true_eq, Bool.and_eq_true, finite.injEq, Int.cast_inj]
  simp [le_iff_lt_or_eq]

@[simp] theorem trunc_ofInt : (ofInt a).trunc = ofInt a := by
  rw [ofInt, trunc, truncate_intCast]

theorem truncate_div (a : ℤ) {d : Nat} (hd : 0 < d) : truncate (a / d : ℚ) = a.tdiv d := by
  have hd' : (0 : ℚ) < d := Nat.cast_pos.mpr hd
  unfold truncate
  rcases lt_or_ge a 0 with ha | ha
  · have hneg : (a / d : ℚ) = -((-a : ℤ) / d : ℚ) := by
      rw [Int.cast_neg, neg_div, neg_neg]
    rw [if_pos (div_neg_of_neg_of_pos (by exact_mod_cast ha) hd'), hneg, Int.ceil_neg,
      Rat.floor_intCast_div_natCast, ← Int.tdiv_eq_ediv_of_nonneg (by omega), Int.neg_tdiv, neg_neg]
  · rw [if_neg (not_lt.mpr (div_nonneg (by exact_mod_cast ha) hd'.le)), Rat.floor_intCast_div_natCast,
      Int.tdiv_eq_ediv_of_nonneg ha]

theorem toI64_ofInt {n : ℤ} (h : n.natAbs ≤ 2 ^ 53) : (ofInt n).toI64 = n := by
  simp only [ofInt, toI64, truncate_intCast]
  omega

theorem rem_ofInt (a : ℤ) {d : Nat} (hd : 0 < d) : (ofInt a).rem d = ofInt (a.tmod d) := by
  simp only [rem, ofInt, truncate_div a hd, finite.injEq]
  have hmod := Int.mul_tdiv_add_tmod a d
  have : (a.tmod d : ℚ) = a - d * a.tdiv d := by
    have hcast : ((d * a.tdiv d + a.tmod d : ℤ) : ℚ) = a := by rw [hmod]
    push_cast at hcast
    linarith
  rw [this]

theorem floor_quot {d k : Nat} (hd : 0 < d) (hsmall : d < 2 ^ (k + 1)) (hk : k ≤ 53)
    (hlow : -(2 : ℤ) ^ (53 - k) ≤ a / d) (hhigh : a / d + 1 ≤ (2 : ℤ) ^ (53 - k)) :
    ((ofInt a).quot d).floor = ofInt (a / d) := by
  have hfloor := floor_roundRat hd hsmall hk hlow hhigh
  have hpow : (2 : ℤ) ^ (53 - k) ≤ 2 ^ 53 := pow_le_pow_right₀ (by norm_num) (by omega)
  have hbounds : -(2 : ℤ) ^ 53 ≤ a / d ∧ a / d + 1 ≤ 2 ^ 53 := ⟨by omega, by omega⟩
  have hfinite : |roundRat (a / d : ℚ)| < limit := by
    have hle : |roundRat (a / d : ℚ)| ≤ 2 ^ 53 := by
      rw [abs_le]
      have hlow' : ((-2 ^ 53 : ℤ) : ℚ) ≤ ⌊roundRat (a / d : ℚ)⌋ := by
        rw [hfloor]
        exact_mod_cast hbounds.1
      have hhigh' : (⌊roundRat (a / d : ℚ)⌋ : ℚ) + 1 ≤ ((2 ^ 53 : ℤ) : ℚ) := by
        rw [hfloor]
        exact_mod_cast hbounds.2
      have hfl := Int.floor_le (roundRat (a / d : ℚ))
      have hlt := Int.lt_floor_add_one (roundRat (a / d : ℚ))
      push_cast at hlow' hhigh'
      constructor <;> linarith
    exact hle.trans_lt (pow_lt_pow_right₀ (by norm_num) (by norm_num))
  simp only [quot, ofInt, ofRat, if_pos hfinite, floor, hfloor]

end Whole

end Double

end Lib.Binary64
