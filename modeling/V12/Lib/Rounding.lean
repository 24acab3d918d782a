/-
V12.Lib.Rounding — rounding to the nearest double.

A quotient is rounded to 53 bits, to the even neighbour when two are equally
near (`roundUnits_nearest`); the exponent has no bound there, and `ofUnits`
makes an infinity of what is too large. Sums and products of doubles are the
rounded ones.
-/
import V12.Lib.Binary64

namespace Lib.Binary64

/-! ## §1 Numbers of 53 bits -/

def excess (u : Nat) : Nat := Nat.log2 u - 52

def IsFloat (u : Nat) : Prop := 2 ^ excess u ∣ u

instance (u : Nat) : Decidable (IsFloat u) := inferInstanceAs (Decidable (_ ∣ _))

theorem excess_of_lt {u : Nat} (h : u < 2 ^ 53) : excess u = 0 := by
  rcases Nat.eq_zero_or_pos u with rfl | hpos
  · rfl
  · have hlog := (Nat.log2_lt (Nat.ne_of_gt hpos)).mpr h
    unfold excess
    omega

theorem lt_pow_excess (u : Nat) : u < 2 ^ (53 + excess u) := by
  have hlog : u < 2 ^ (Nat.log2 u + 1) := Nat.lt_log2_self
  refine Nat.lt_of_lt_of_le hlog (Nat.pow_le_pow_right Nat.two_pos ?_)
  unfold excess
  omega

theorem pow_excess_le {u : Nat} (h : excess u ≠ 0) : 2 ^ (52 + excess u) ≤ u := by
  have hne : u ≠ 0 := by
    rintro rfl
    exact h rfl
  have hlog : 2 ^ Nat.log2 u ≤ u := Nat.log2_self_le hne
  have heq : 52 + excess u = Nat.log2 u := by
    unfold excess at h ⊢
    omega
  rwa [heq]

theorem excess_eq {u k : Nat} (hlow : 2 ^ (52 + k) ≤ u) (hhigh : u < 2 ^ (53 + k)) :
    excess u = k := by
  have hne : u ≠ 0 := Nat.ne_of_gt (Nat.lt_of_lt_of_le (Nat.two_pow_pos _) hlow)
  have h1 := (Nat.le_log2 hne).mpr hlow
  have h2 := (Nat.log2_lt hne).mpr hhigh
  unfold excess
  omega

theorem isFloat_of_lt {u : Nat} (h : u < 2 ^ 53) : IsFloat u := by
  rw [IsFloat, excess_of_lt h]
  exact Nat.one_dvd u

theorem isFloat_mul_pow {m k : Nat} (h : m ≤ 2 ^ 53) : IsFloat (m * 2 ^ k) := by
  rcases Nat.lt_or_ge (m * 2 ^ k) (2 ^ 53) with hlt | hge
  · exact isFloat_of_lt hlt
  rcases Nat.lt_or_eq_of_le h with hm | rfl
  · refine Nat.dvd_trans (Nat.pow_dvd_pow 2 ?_) (Nat.dvd_mul_left (2 ^ k) m)
    have hlt : m * 2 ^ k < 2 ^ (53 + k) := by
      rw [Nat.pow_add]
      exact Nat.mul_lt_mul_of_pos_right hm (Nat.two_pow_pos k)
    have hlog := (Nat.log2_lt (Nat.ne_of_gt (Nat.lt_of_lt_of_le (Nat.two_pow_pos 53) hge))).mpr hlt
    unfold excess
    omega
  · have hexcess : excess (2 ^ 53 * 2 ^ k) = k + 1 := by
      refine excess_eq ?_ ?_
      · rw [← Nat.pow_add]
        exact Nat.le_of_eq (congrArg (2 ^ ·) (by omega))
      · rw [← Nat.pow_add]
        exact Nat.pow_lt_pow_right Nat.one_lt_two (by omega)
    rw [IsFloat, hexcess, ← Nat.pow_add]
    exact Nat.pow_dvd_pow 2 (by omega)

theorem IsFloat.mul_pow {u : Nat} (h : IsFloat u) (j : Nat) : IsFloat (u * 2 ^ j) := by
  obtain ⟨m, hm⟩ := h
  have hle : m ≤ 2 ^ 53 := by
    refine Nat.le_of_lt (Nat.lt_of_mul_lt_mul_left (a := 2 ^ excess u) ?_)
    rw [← hm, ← Nat.pow_add, Nat.add_comm]
    exact lt_pow_excess u
  rw [hm, Nat.mul_comm (2 ^ excess u) m, Nat.mul_assoc, ← Nat.pow_add]
  exact isFloat_mul_pow hle

/-! ## §2 Rounding -/

/-- The whole number nearest to `n / d`, the even one of two. -/
def halfEven (n d : Nat) : Nat :=
  if 2 * (n % d) < d ∨ 2 * (n % d) = d ∧ n / d % 2 = 0 then n / d else n / d + 1

/-- The float nearest to `n / d`. -/
def roundUnits (n d : Nat) : Nat :=
  halfEven n (d * 2 ^ excess (n / d)) * 2 ^ excess (n / d)

section HalfEven

variable {n d : Nat}

theorem halfEven_bounds (hd : 0 < d) :
    2 * n ≤ (2 * halfEven n d + 1) * d ∧ 2 * halfEven n d * d ≤ 2 * n + d := by
  have hdiv := Nat.div_add_mod n d
  have hmod := Nat.mod_lt n hd
  generalize hq : n / d = q at hdiv
  generalize hr : n % d = r at hdiv hmod
  have hn : 2 * n = 2 * q * d + 2 * r := by rw [← hdiv, Nat.mul_add, ← Nat.mul_assoc,
    Nat.mul_right_comm]
  unfold halfEven
  rw [hq, hr]
  split
  case isTrue h =>
    rw [Nat.add_mul, hn]
    omega
  case isFalse h =>
    have h1 : 2 * (q + 1) * d = 2 * q * d + 2 * d := by ring
    rw [Nat.add_mul, h1, hn]
    omega

theorem even_halfEven (h : 2 * n = (2 * halfEven n d + 1) * d ∨
    2 * halfEven n d * d = 2 * n + d) (hd : 0 < d) : halfEven n d % 2 = 0 := by
  have hdiv := Nat.div_add_mod n d
  have hmod := Nat.mod_lt n hd
  generalize hq : n / d = q at hdiv
  generalize hr : n % d = r at hdiv hmod
  have hn : 2 * n = 2 * q * d + 2 * r := by rw [← hdiv, Nat.mul_add, ← Nat.mul_assoc,
    Nat.mul_right_comm]
  unfold halfEven at h ⊢
  rw [hq, hr] at h ⊢
  split at h
  case isTrue hlow =>
    rw [if_pos hlow]
    rw [Nat.add_mul, hn] at h
    omega
  case isFalse hhigh =>
    rw [if_neg hhigh]
    have h1 : 2 * (q + 1) * d = 2 * q * d + 2 * d := by ring
    rw [Nat.add_mul, h1, hn] at h
    omega

theorem halfEven_mul (q : Nat) (hd : 0 < d) : halfEven (q * d) d = q := by
  have hmod : q * d % d = 0 := Nat.mul_mod_left q d
  have hdiv : q * d / d = q := Nat.mul_div_cancel q hd
  rw [halfEven, hmod, hdiv, if_pos]
  exact .inl hd

theorem halfEven_scale (c : Nat) (hc : 0 < c) : halfEven (n * c) (d * c) = halfEven n d := by
  have hdiv : n * c / (d * c) = n / d := Nat.mul_div_mul_right n d hc
  have hmod : n * c % (d * c) = n % d * c := Nat.mul_mod_mul_right c n d
  unfold halfEven
  rw [hdiv, hmod, ← Nat.mul_assoc]
  have hlt : 2 * (n % d) * c < d * c ↔ 2 * (n % d) < d := Nat.mul_lt_mul_right hc
  have heq : 2 * (n % d) * c = d * c ↔ 2 * (n % d) = d := Nat.mul_right_cancel_iff hc
  simp only [hlt, heq]

end HalfEven

section Round

variable {n d : Nat}

theorem lt_of_excess (hd : 0 < d) : n < 2 ^ (53 + excess (n / d)) * d :=
  (Nat.div_lt_iff_lt_mul hd).mp (lt_pow_excess (n / d))

theorem halfEven_le (hd : 0 < d) : halfEven n (d * 2 ^ excess (n / d)) ≤ 2 ^ 53 := by
  have hlt := lt_of_excess (n := n) hd
  have hpos : 0 < d * 2 ^ excess (n / d) := Nat.mul_pos hd (Nat.two_pow_pos _)
  have hbound := (halfEven_bounds (n := n) hpos).2
  rw [Nat.pow_add, Nat.mul_assoc, Nat.mul_comm (2 ^ excess (n / d)) d] at hlt
  generalize d * 2 ^ excess (n / d) = D at *
  by_contra hge
  have hmul : (2 ^ 53 + 1) * D ≤ halfEven n D * D := Nat.mul_le_mul_right D (by omega)
  rw [Nat.mul_assoc] at hbound
  omega

theorem isFloat_roundUnits (hd : 0 < d) : IsFloat (roundUnits n d) :=
  isFloat_mul_pow (halfEven_le hd)

theorem roundUnits_mul {u : Nat} (hu : IsFloat u) (hd : 0 < d) : roundUnits (u * d) d = u := by
  obtain ⟨m, hm⟩ := hu
  rw [roundUnits, Nat.mul_div_cancel u hd]
  have heq : u * d = m * (d * 2 ^ excess u) := by
    rw [Nat.mul_left_comm, Nat.mul_comm m, ← hm, Nat.mul_comm]
  rw [heq, halfEven_mul m (Nat.mul_pos hd (Nat.two_pow_pos _)), Nat.mul_comm m, ← hm]

theorem roundUnits_scale (c : Nat) (hc : 0 < c) : roundUnits (n * c) (d * c) = roundUnits n d := by
  unfold roundUnits
  rw [Nat.mul_div_mul_right n d hc, Nat.mul_right_comm, halfEven_scale c hc]

theorem multiple_or_below {v : Nat} (hv : IsFloat v) (k : Nat) :
    2 ^ k ∣ v ∨ v < 2 ^ (52 + k) := by
  by_cases hk : k ≤ excess v
  · exact .inl (Nat.dvd_trans (Nat.pow_dvd_pow 2 hk) hv)
  · refine .inr (Nat.lt_of_lt_of_le (lt_pow_excess v) ?_)
    exact Nat.pow_le_pow_right Nat.two_pos (by omega)

theorem halfEven_nearest (hd : 0 < d) (w : Nat) :
    |(n : ℤ) - d * halfEven n d| ≤ |(n : ℤ) - d * w| ∧
      (w ≠ halfEven n d → |(n : ℤ) - d * halfEven n d| = |(n : ℤ) - d * w| →
        halfEven n d % 2 = 0) := by
  have hbounds := halfEven_bounds (n := n) hd
  have heven := even_halfEven (n := n) (d := d)
  generalize halfEven n d = q at *
  have hupper : 2 * ((n : ℤ) - d * q) ≤ d := by
    have := hbounds.1
    zify at this
    linarith
  have hlower : -(d : ℤ) ≤ 2 * ((n : ℤ) - d * q) := by
    have := hbounds.2
    zify at this
    linarith
  rcases Nat.lt_trichotomy w q with hlt | rfl | hgt
  · -- `w` lies at least one step below
    have hstep : (d : ℤ) * w + d ≤ d * q := by
      have : d * (w + 1) ≤ d * q := Nat.mul_le_mul_left d hlt
      zify at this
      linarith
    have habs : |(n : ℤ) - d * w| = n - d * w := abs_of_nonneg (by linarith)
    refine ⟨?_, fun _ htie => heven (.inr ?_) hd⟩
    · rw [habs, abs_le]
      constructor <;> linarith
    · rw [habs] at htie
      zify
      rcases abs_choice ((n : ℤ) - d * q) with hc | hc <;> rw [hc] at htie <;> linarith
  · exact ⟨le_refl _, fun hne => absurd rfl hne⟩
  · have hstep : (d : ℤ) * q + d ≤ d * w := by
      have : d * (q + 1) ≤ d * w := Nat.mul_le_mul_left d hgt
      zify at this
      linarith
    have habs : |(n : ℤ) - d * w| = -(n - d * w) := abs_of_nonpos (by linarith)
    refine ⟨?_, fun _ htie => heven (.inl ?_) hd⟩
    · rw [habs, abs_le]
      constructor <;> linarith
    · rw [habs] at htie
      zify
      rcases abs_choice ((n : ℤ) - d * q) with hc | hc <;> rw [hc] at htie <;> linarith

/-- **Rounding gives a nearest float**, and of two equally near ones that with an even last
digit. -/
theorem roundUnits_nearest (hd : 0 < d) {v : Nat} (hv : IsFloat v) :
    |(n : ℤ) - d * roundUnits n d| ≤ |(n : ℤ) - d * v| ∧
      (v ≠ roundUnits n d → |(n : ℤ) - d * roundUnits n d| = |(n : ℤ) - d * v| →
        2 ^ (excess (n / d) + 1) ∣ roundUnits n d) := by
  have hpos : 0 < d * 2 ^ excess (n / d) := Nat.mul_pos hd (Nat.two_pow_pos _)
  have hcast : ∀ w : Nat, ((d * 2 ^ excess (n / d) : Nat) : ℤ) * w =
      d * ((w * 2 ^ excess (n / d) : Nat) : ℤ) := by
    intro w
    push_cast
    ring
  have hnear := halfEven_nearest (n := n) hpos
  simp only [hcast] at hnear
  rcases multiple_or_below hv (excess (n / d)) with ⟨w, hw⟩ | hbelow
  · rw [Nat.mul_comm] at hw
    subst hw
    refine ⟨(hnear w).1, fun hne htie => ?_⟩
    have heven := (hnear w).2 (fun heq => hne (by rw [heq]; rfl)) htie
    rw [roundUnits, Nat.pow_succ, Nat.mul_comm]
    exact Nat.mul_dvd_mul_right (Nat.dvd_of_mod_eq_zero heven) _
  · have hk : excess (n / d) ≠ 0 ∨ excess (n / d) = 0 := by omega
    rcases hk with hk | hk
    · -- the power of 2 between `v` and the quotient is nearer
      have hpow : d * (2 ^ 52 * 2 ^ excess (n / d)) ≤ n := by
        rw [← Nat.pow_add, Nat.mul_comm]
        exact (Nat.le_div_iff_mul_le hd).mp (pow_excess_le hk)
      have hlt : d * v < d * (2 ^ 52 * 2 ^ excess (n / d)) := by
        rw [← Nat.pow_add]
        exact Nat.mul_lt_mul_of_pos_left hbelow hd
      have hle := (hnear (2 ^ 52)).1
      change |(n : ℤ) - d * roundUnits n d| ≤ _ at hle
      generalize 2 ^ 52 * 2 ^ excess (n / d) = f at hpow hlt hle
      zify at hpow hlt
      rw [abs_of_nonneg (a := (n : ℤ) - d * f) (by linarith)] at hle
      have hv' : |(n : ℤ) - d * v| = n - d * v := abs_of_nonneg (by linarith)
      rw [hv']
      exact ⟨by linarith, fun _ htie => by linarith⟩
    · have hw : v = v * 2 ^ excess (n / d) := by rw [hk, Nat.pow_zero, Nat.mul_one]
      have hnear' := hnear v
      rw [← hw] at hnear'
      refine ⟨hnear'.1, fun hne htie => ?_⟩
      have heven := hnear'.2 (fun heq => hne (hw.trans (by rw [heq]; rfl))) htie
      rw [roundUnits, Nat.pow_succ, Nat.mul_comm]
      exact Nat.mul_dvd_mul_right (Nat.dvd_of_mod_eq_zero heven) _

theorem le_roundUnits {f : Nat} (hf : IsFloat f) (hd : 0 < d) (h : f * d ≤ n) :
    f ≤ roundUnits n d := by
  by_contra hlt
  have hnear := (roundUnits_nearest (n := n) hd hf).1
  have hstep : d * roundUnits n d < d * f := Nat.mul_lt_mul_of_pos_left (by omega) hd
  rw [Nat.mul_comm] at h
  zify at h hstep
  rw [abs_of_nonneg (a := (n : ℤ) - d * f) (by linarith),
    abs_of_nonneg (by linarith)] at hnear
  linarith

theorem roundUnits_le {f : Nat} (hf : IsFloat f) (hd : 0 < d) (h : n ≤ f * d) :
    roundUnits n d ≤ f := by
  by_contra hlt
  have hnear := (roundUnits_nearest (n := n) hd hf).1
  have hstep : d * f < d * roundUnits n d := Nat.mul_lt_mul_of_pos_left (by omega) hd
  rw [Nat.mul_comm] at h
  zify at h hstep
  rw [abs_of_nonpos (a := (n : ℤ) - d * f) (by linarith),
    abs_of_nonpos (by linarith)] at hnear
  linarith

theorem roundUnits_mono {n' d' : Nat} (hd : 0 < d) (hd' : 0 < d') (h : n * d' ≤ n' * d) :
    roundUnits n d ≤ roundUnits n' d' := by
  by_contra hlt
  have hnear := (roundUnits_nearest (n := n) hd (isFloat_roundUnits (n := n') hd')).1
  have hnear' := (roundUnits_nearest (n := n') hd' (isFloat_roundUnits (n := n) hd)).1
  have hfrac : roundUnits n d = roundUnits (n * d') (d * d') := (roundUnits_scale d' hd').symm
  have hfrac' : roundUnits n' d' = roundUnits (n' * d) (d' * d) := (roundUnits_scale d hd).symm
  have hne : n * d' ≠ n' * d := by
    intro heq
    rw [hfrac, hfrac', heq, Nat.mul_comm d d'] at hlt
    exact hlt (Nat.le_refl _)
  have hlow : ¬ n ≤ roundUnits n' d' * d := fun hle =>
    hlt (roundUnits_le (isFloat_roundUnits hd') hd hle)
  have hhigh : ¬ roundUnits n d * d' ≤ n' := fun hle =>
    hlt (le_roundUnits (isFloat_roundUnits hd) hd' hle)
  generalize roundUnits n d = b at *
  generalize roundUnits n' d' = a at *
  -- both quotients lie between the two floats, in the wrong halves
  zify at hlow hhigh h hne hd hd'
  rw [abs_of_nonneg (a := (n : ℤ) - d * a) (by linarith)] at hnear
  rw [abs_of_nonpos (a := (n' : ℤ) - d' * b) (by linarith)] at hnear'
  have h1 : (d : ℤ) * (a + b) ≤ 2 * n := by
    have := neg_abs_le ((n : ℤ) - d * b)
    linarith
  have h2 : 2 * (n' : ℤ) ≤ d' * (a + b) := by
    have := le_abs_self ((n' : ℤ) - d' * a)
    linarith
  have h3 : 2 * (n' : ℤ) * d ≤ d' * (a + b) * d := mul_le_mul_of_nonneg_right h2 (le_of_lt hd)
  have h4 : (d : ℤ) * (a + b) * d' ≤ 2 * n * d' := mul_le_mul_of_nonneg_right h1 (le_of_lt hd')
  refine hne (le_antisymm h ?_)
  linarith

theorem roundUnits_mul_pow (n j : Nat) : roundUnits (n * 2 ^ j) 1 = roundUnits n 1 * 2 ^ j := by
  rcases Nat.lt_or_ge n (2 ^ 53) with hlt | hge
  · have hn := isFloat_of_lt hlt
    have h1 := roundUnits_mul (hn.mul_pow j) Nat.one_pos
    have h2 := roundUnits_mul hn Nat.one_pos
    rw [Nat.mul_one] at h1 h2
    rw [h1, h2]
  · have hk : excess n ≠ 0 := by
      intro h0
      have := lt_pow_excess n
      rw [h0] at this
      omega
    have hexcess : excess (n * 2 ^ j) = excess n + j := by
      refine excess_eq ?_ ?_
      · rw [← Nat.add_assoc, Nat.pow_add]
        exact Nat.mul_le_mul_right _ (pow_excess_le hk)
      · rw [← Nat.add_assoc, Nat.pow_add]
        exact Nat.mul_lt_mul_of_pos_right (lt_pow_excess n) (Nat.two_pow_pos j)
    unfold roundUnits
    rw [Nat.div_one, Nat.div_one, hexcess, Nat.pow_add, ← Nat.mul_assoc 1,
      halfEven_scale _ (Nat.two_pow_pos j), Nat.mul_assoc]

section Append

variable {p j low : Nat}

theorem excess_append (hp : 2 ^ 53 ≤ p) (hlow : low < 2 ^ j) :
    excess p ≠ 0 ∧ excess (p * 2 ^ j + low) = excess p + j := by
  have hk : excess p ≠ 0 := by
    intro h0
    have := lt_pow_excess p
    rw [h0] at this
    omega
  refine ⟨hk, excess_eq ?_ ?_⟩
  · rw [← Nat.add_assoc, Nat.pow_add]
    exact Nat.le_add_right_of_le (Nat.mul_le_mul_right _ (pow_excess_le hk))
  · have hstep : (p + 1) * 2 ^ j ≤ 2 ^ (53 + excess p) * 2 ^ j :=
      Nat.mul_le_mul_right _ (lt_pow_excess p)
    rw [← Nat.add_assoc, Nat.pow_add]
    rw [Nat.add_mul, Nat.one_mul] at hstep
    omega

theorem roundUnits_append (hp : 2 ^ 53 ≤ p) (hlow : low < 2 ^ j) :
    roundUnits (p * 2 ^ j + low) 1 =
      (if 2 * (p % 2 ^ excess p) < 2 ^ excess p ∨
          2 * (p % 2 ^ excess p) = 2 ^ excess p ∧ low = 0 ∧ p / 2 ^ excess p % 2 = 0
        then p / 2 ^ excess p else p / 2 ^ excess p + 1) * 2 ^ (excess p + j) := by
  obtain ⟨hk, hexcess⟩ := excess_append hp hlow
  have hdiv : (p * 2 ^ j + low) / (2 ^ excess p * 2 ^ j) = p / 2 ^ excess p := by
    rw [Nat.mul_comm (2 ^ excess p), ← Nat.div_div_eq_div_mul, Nat.add_comm,
      Nat.add_mul_div_right _ _ (Nat.two_pow_pos j), Nat.div_eq_of_lt hlow, Nat.zero_add]
  have hmod : (p * 2 ^ j + low) % (2 ^ excess p * 2 ^ j) = p % 2 ^ excess p * 2 ^ j + low := by
    have hsplit := Nat.div_add_mod (p * 2 ^ j + low) (2 ^ excess p * 2 ^ j)
    have hp' := Nat.div_add_mod p (2 ^ excess p)
    rw [hdiv] at hsplit
    have heq : p * 2 ^ j = 2 ^ excess p * 2 ^ j * (p / 2 ^ excess p) + p % 2 ^ excess p * 2 ^ j := by
      conv_lhs => rw [← hp']
      ring
    omega
  unfold roundUnits
  rw [Nat.div_one, hexcess, Nat.one_mul, Nat.pow_add]
  unfold halfEven
  rw [hdiv, hmod]
  obtain ⟨half, hhalf⟩ : ∃ half, 2 ^ excess p = 2 * half :=
    ⟨2 ^ (excess p - 1), by rw [← Nat.pow_succ', Nat.succ_eq_add_one,
      Nat.sub_add_cancel (Nat.pos_of_ne_zero hk)]⟩
  rw [hhalf]
  generalize p / (2 * half) = q
  generalize p % (2 * half) = x
  have hlt : 2 * (x * 2 ^ j + low) < 2 * half * 2 ^ j ↔ 2 * x < 2 * half := by
    rw [Nat.mul_assoc, Nat.mul_lt_mul_left Nat.two_pos, Nat.mul_lt_mul_left Nat.two_pos]
    constructor
    · intro h
      exact Nat.lt_of_mul_lt_mul_right (a := 2 ^ j) (by omega)
    · intro h
      have hstep : (x + 1) * 2 ^ j ≤ half * 2 ^ j := Nat.mul_le_mul_right _ h
      rw [Nat.add_mul, Nat.one_mul] at hstep
      omega
  have heq : 2 * (x * 2 ^ j + low) = 2 * half * 2 ^ j ↔ 2 * x = 2 * half ∧ low = 0 := by
    rw [Nat.mul_assoc, Nat.mul_right_inj two_ne_zero, Nat.mul_right_inj two_ne_zero]
    constructor
    · intro h
      have hle : x ≤ half := Nat.le_of_mul_le_mul_right (c := 2 ^ j) (by omega) (Nat.two_pow_pos j)
      have hge : half < x + 1 := by
        refine Nat.lt_of_mul_lt_mul_right (a := 2 ^ j) ?_
        rw [Nat.add_mul, Nat.one_mul]
        omega
      obtain rfl : x = half := by omega
      exact ⟨rfl, by omega⟩
    · rintro ⟨rfl, rfl⟩
      rfl
  simp only [hlt, heq, and_assoc]

end Append

end Round

/-! ## §3 Patterns -/

def infinity (neg : Bool) : BitVec 64 := pack neg 2047 0

/-- `f64::NAN`. -/
def nan : BitVec 64 := pack false 2047 (2 ^ 51)

def IsNaN (bits : BitVec 64) : Prop := exponent bits = 2047 ∧ fraction bits ≠ 0

instance (bits : BitVec 64) : Decidable (IsNaN bits) := inferInstanceAs (Decidable (_ ∧ _))

/-- The pattern of a float, an infinity if it is too large. -/
def ofUnits (neg : Bool) (u : Nat) : BitVec 64 :=
  if u < 2 ^ 52 then pack neg 0 u
  else if excess u + 1 < 2047 then pack neg (excess u + 1) (u / 2 ^ excess u - 2 ^ 52)
  else infinity neg

/-- The double nearest to `n / d`. -/
def nearest (neg : Bool) (n d : Nat) : BitVec 64 := ofUnits neg (roundUnits (n * unitsPerOne) d)

def ofNat (n : Nat) : BitVec 64 := ofUnits false (n * unitsPerOne)

/-- The exponent of the first power of 2 that is too large, in units. -/
def overflowExponent : Nat := 2098

def overflow : Nat := 2 ^ overflowExponent

section Patterns

variable (neg : Bool) {u : Nat}

theorem pow_le_overflow {k : Nat} (h : k ≤ overflowExponent) : 2 ^ k ≤ overflow :=
  Nat.pow_le_pow_right Nat.two_pos h

theorem pow_mul_pow_le {i j : Nat} (h : i + j ≤ overflowExponent) : 2 ^ i * 2 ^ j ≤ overflow := by
  rw [← Nat.pow_add]
  exact pow_le_overflow h

theorem overflow_le_iff (u : Nat) : overflow ≤ u ↔ ¬ excess u + 1 < 2047 := by
  constructor
  · intro h hlt
    have hpow := pow_le_overflow (k := 53 + excess u) (by unfold overflowExponent; omega)
    exact absurd (Nat.lt_of_lt_of_le (lt_pow_excess u) hpow) (Nat.not_lt.mpr h)
  · intro h
    refine Nat.le_trans ?_ (pow_excess_le (u := u) (by omega))
    exact Nat.pow_le_pow_right Nat.two_pos (by unfold overflowExponent; omega)

theorem ofUnits_of_overflow (h : overflow ≤ u) : ofUnits neg u = infinity neg := by
  have hpow := pow_le_overflow (k := 52) (by decide)
  have hsmall : ¬ u < 2 ^ 52 := Nat.not_lt.mpr (hpow.trans h)
  rw [ofUnits, if_neg hsmall, if_neg ((overflow_le_iff u).mp h)]

theorem ofUnits_spec (hu : IsFloat u) (h : u < overflow) :
    negative (ofUnits neg u) = neg ∧ IsFinite (ofUnits neg u) ∧ units (ofUnits neg u) = u := by
  unfold ofUnits
  split
  case isTrue hlt =>
    have hzero : exponent (pack neg 0 u) = 0 := exponent_pack (by omega) hlt
    refine ⟨negative_pack (by omega) hlt, ?_, ?_⟩
    · rw [IsFinite, hzero]
      omega
    · rw [units, significand, hzero, if_pos rfl, fraction_pack (by omega) hlt, Nat.zero_sub,
        Nat.pow_zero, Nat.mul_one]
  case isFalse hge =>
    have hexp : excess u + 1 < 2047 := by
      by_contra hnot
      exact absurd h (Nat.not_lt.mpr ((overflow_le_iff u).mpr hnot))
    obtain ⟨m, hm⟩ := hu
    have hdiv : u / 2 ^ excess u = m := Nat.div_eq_of_eq_mul_right (Nat.two_pow_pos _) hm
    have hlow : 2 ^ 52 ≤ m := by
      by_cases hk : excess u = 0
      · rw [hk, Nat.pow_zero, Nat.one_mul] at hm
        omega
      · have hle := pow_excess_le hk
        rw [Nat.add_comm, Nat.pow_add] at hle
        exact Nat.le_of_mul_le_mul_left (hle.trans_eq hm) (Nat.two_pow_pos _)
    have hhigh : m < 2 ^ 53 := by
      refine Nat.lt_of_mul_lt_mul_left (a := 2 ^ excess u) ?_
      rw [← hm, ← Nat.pow_add, Nat.add_comm]
      exact lt_pow_excess u
    have hfrac : m - 2 ^ 52 < 2 ^ 52 := by omega
    rw [if_pos hexp, hdiv]
    have hexponent : exponent (pack neg (excess u + 1) (m - 2 ^ 52)) = excess u + 1 :=
      exponent_pack (by omega) hfrac
    refine ⟨negative_pack (by omega) hfrac, ?_, ?_⟩
    · rw [IsFinite, hexponent]
      omega
    · rw [units, significand, hexponent, if_neg (by omega), fraction_pack (by omega) hfrac,
        Nat.add_sub_cancel]
      rw [show 2 ^ 52 + (m - 2 ^ 52) = m by omega, Nat.mul_comm, ← hm]

end Patterns

/-! ## §4 Arithmetic -/

def signedUnits (bits : BitVec 64) : ℤ := if negative bits then -(units bits : ℤ) else units bits

/-- `x + y`. -/
def add (x y : BitVec 64) : BitVec 64 :=
  if IsNaN x ∨ IsNaN y then nan
  else if ¬ IsFinite x then
    if ¬ IsFinite y ∧ negative x ≠ negative y then nan else x
  else if ¬ IsFinite y then y
  else
    let s := signedUnits x + signedUnits y
    if s = 0 then pack (negative x && negative y) 0 0
    else ofUnits (decide (s < 0)) (roundUnits s.natAbs 1)

/-- `x * y`. -/
def mul (x y : BitVec 64) : BitVec 64 :=
  let neg := negative x != negative y
  if IsNaN x ∨ IsNaN y then nan
  else if ¬ IsFinite x ∨ ¬ IsFinite y then
    if units x = 0 ∨ units y = 0 then nan else infinity neg
  else ofUnits neg (roundUnits (units x * units y) unitsPerOne)

/-- `x == y`. -/
def eq (x y : BitVec 64) : Bool :=
  ¬ IsNaN x ∧ ¬ IsNaN y ∧ (x = y ∨ units x = 0 ∧ units y = 0)

/-- `-x`. -/
def neg (x : BitVec 64) : BitVec 64 := pack (!negative x) (exponent x) (fraction x)

theorem exponent_lt (x : BitVec 64) : exponent x < 2 ^ 11 := Nat.mod_lt _ (Nat.two_pow_pos 11)

theorem fraction_lt (x : BitVec 64) : fraction x < 2 ^ 52 := Nat.mod_lt _ (Nat.two_pow_pos 52)

theorem isNaN_neg {x : BitVec 64} : IsNaN (neg x) ↔ IsNaN x := by
  unfold IsNaN neg
  rw [exponent_pack (exponent_lt x) (fraction_lt x), fraction_pack (exponent_lt x) (fraction_lt x)]

theorem neg_pack (s : Bool) {exp frac : Nat} (hexp : exp < 2 ^ 11) (hfrac : frac < 2 ^ 52) :
    neg (pack s exp frac) = pack (!s) exp frac := by
  rw [neg, negative_pack hexp hfrac, exponent_pack hexp hfrac, fraction_pack hexp hfrac]

theorem neg_infinity (s : Bool) : neg (infinity s) = infinity (!s) :=
  neg_pack s (by omega) (by omega)

theorem neg_ofUnits (s : Bool) (u : Nat) : neg (ofUnits s u) = ofUnits (!s) u := by
  unfold ofUnits
  split
  case isTrue hlt => exact neg_pack s (by omega) hlt
  case isFalse =>
    split
    case isTrue hexp =>
      have hlt : u / 2 ^ excess u < 2 ^ 53 := by
        rw [Nat.div_lt_iff_lt_mul (Nat.two_pow_pos _), ← Nat.pow_add]
        exact lt_pow_excess u
      exact neg_pack s (by omega) (by omega)
    case isFalse => exact neg_infinity s

theorem isNaN_nan : IsNaN nan := by
  have hexp : exponent nan = 2047 := exponent_pack (by omega) (by omega)
  have hfrac : fraction nan = 2 ^ 51 := fraction_pack (by omega) (by omega)
  rw [IsNaN, hexp, hfrac]
  omega

theorem not_isNaN_of_isFinite {x : BitVec 64} (h : IsFinite x) : ¬ IsNaN x := fun hnan => h hnan.1

theorem infinity_spec (neg : Bool) : negative (infinity neg) = neg ∧ ¬ IsFinite (infinity neg) ∧
    ¬ IsNaN (infinity neg) ∧ units (infinity neg) ≠ 0 := by
  have hexp : exponent (infinity neg) = 2047 := exponent_pack (by omega) (by omega)
  have hfrac : fraction (infinity neg) = 0 := fraction_pack (by omega) (by omega)
  refine ⟨negative_pack (by omega) (by omega), fun h => h hexp, fun h => h.2 hfrac, ?_⟩
  have hpos : ∀ e, 0 < 2 ^ 52 * 2 ^ e := fun e => Nat.mul_pos (Nat.two_pow_pos 52) (Nat.two_pow_pos e)
  rw [units, significand, hexp, hfrac, if_neg (by omega), Nat.add_zero]
  exact Nat.ne_of_gt (hpos _)

theorem not_isNaN_ofUnits (s : Bool) {u : Nat} (hu : IsFloat u) : ¬ IsNaN (ofUnits s u) := by
  rcases Nat.lt_or_ge u overflow with hlt | hge
  · exact not_isNaN_of_isFinite (ofUnits_spec s hu hlt).2.1
  · rw [ofUnits_of_overflow s hge]
    exact (infinity_spec s).2.2.1

section Whole

variable {a b d : Nat}

theorem IsFloat.mul_unitsPerOne (h : IsFloat a) : IsFloat (a * unitsPerOne) := h.mul_pow 1074

theorem ofNat_cases (ha : IsFloat a) :
    (a * unitsPerOne < overflow ∧ negative (ofNat a) = false ∧ IsFinite (ofNat a) ∧
      units (ofNat a) = a * unitsPerOne) ∨
    (overflow ≤ a * unitsPerOne ∧ ofNat a = infinity false) := by
  rcases Nat.lt_or_ge (a * unitsPerOne) overflow with hlt | hge
  · exact .inl ⟨hlt, ofUnits_spec false ha.mul_unitsPerOne hlt⟩
  · exact .inr ⟨hge, ofUnits_of_overflow false hge⟩

theorem ofNat_inj (ha : IsFloat a) (hb : IsFloat b) :
    ofNat a = ofNat b ↔
      a = b ∨ overflow ≤ a * unitsPerOne ∧ overflow ≤ b * unitsPerOne := by
  constructor
  · intro h
    rcases ofNat_cases ha with ⟨-, -, hfin, hunits⟩ | ⟨hge, hinf⟩
    · rcases ofNat_cases hb with ⟨-, -, -, hunits'⟩ | ⟨-, hinf'⟩
      · rw [h, hunits'] at hunits
        exact .inl (Nat.eq_of_mul_eq_mul_right unitsPerOne_pos hunits.symm)
      · rw [h, hinf'] at hfin
        exact absurd hfin (infinity_spec false).2.1
    · rcases ofNat_cases hb with ⟨-, -, hfin', -⟩ | ⟨hge', -⟩
      · rw [← h, hinf] at hfin'
        exact absurd hfin' (infinity_spec false).2.1
      · exact .inr ⟨hge, hge'⟩
  · rintro (rfl | ⟨ha', hb'⟩)
    · rfl
    · rw [ofNat, ofNat, ofUnits_of_overflow false ha', ofUnits_of_overflow false hb']

theorem ofNat_small (hd : d < 2 ^ 53) : negative (ofNat d) = false ∧ IsFinite (ofNat d) ∧
    units (ofNat d) = d * unitsPerOne := by
  refine ofUnits_spec false (isFloat_of_lt hd).mul_unitsPerOne ?_
  have hpow : 2 ^ 53 * unitsPerOne ≤ overflow := by
    unfold unitsPerOne
    exact pow_mul_pow_le (by decide)
  exact Nat.lt_of_lt_of_le (Nat.mul_lt_mul_of_pos_right hd unitsPerOne_pos) hpow

theorem mul_ofNat (ha : IsFloat a) (hb : 2 ^ b < 2 ^ 53) :
    mul (ofNat a) (ofNat (2 ^ b)) = ofNat (a * 2 ^ b) := by
  obtain ⟨hneg, hfin, hunits⟩ := ofNat_small hb
  have hne : units (ofNat (2 ^ b)) ≠ 0 := by
    rw [hunits]
    exact Nat.ne_of_gt (Nat.mul_pos (Nat.two_pow_pos b) unitsPerOne_pos)
  unfold mul
  rcases ofNat_cases ha with ⟨-, hneg', hfin', hunits'⟩ | ⟨hge, hinf⟩
  · have hnan : ¬ (IsNaN (ofNat a) ∨ IsNaN (ofNat (2 ^ b))) := by
      rintro (h | h)
      · exact not_isNaN_of_isFinite hfin' h
      · exact not_isNaN_of_isFinite hfin h
    have hboth : ¬ (¬ IsFinite (ofNat a) ∨ ¬ IsFinite (ofNat (2 ^ b))) := by
      rintro (h | h)
      · exact h hfin'
      · exact h hfin
    rw [if_neg hnan, if_neg hboth, hneg, hneg', hunits, hunits']
    have heq : a * unitsPerOne * (2 ^ b * unitsPerOne) = a * 2 ^ b * unitsPerOne * unitsPerOne := by
      ring
    rw [heq, roundUnits_mul (ha.mul_pow b).mul_unitsPerOne unitsPerOne_pos]
    rfl
  · obtain ⟨hneg', hinfinite, hnotNaN, hne'⟩ := infinity_spec false
    have hnan : ¬ (IsNaN (infinity false) ∨ IsNaN (ofNat (2 ^ b))) := by
      rintro (h | h)
      · exact hnotNaN h
      · exact not_isNaN_of_isFinite hfin h
    have hzero : ¬ (units (infinity false) = 0 ∨ units (ofNat (2 ^ b)) = 0) := by
      rintro (h | h)
      · exact hne' h
      · exact hne h
    rw [hinf, if_neg hnan, if_pos (.inl hinfinite), if_neg hzero, hneg, hneg']
    have hle : a * unitsPerOne ≤ a * 2 ^ b * unitsPerOne :=
      Nat.mul_le_mul_right _ (Nat.le_mul_of_pos_right a (Nat.two_pow_pos b))
    exact (ofUnits_of_overflow false (hge.trans hle)).symm

theorem add_ofNat (ha : IsFloat a) (hd : d < 2 ^ 53) :
    add (ofNat a) (ofNat d) = ofNat (roundUnits (a + d) 1) := by
  obtain ⟨hneg, hfin, hunits⟩ := ofNat_small hd
  unfold add
  rcases ofNat_cases ha with ⟨-, hneg', hfin', hunits'⟩ | ⟨hge, hinf⟩
  · have hnan : ¬ (IsNaN (ofNat a) ∨ IsNaN (ofNat d)) := by
      rintro (h | h)
      · exact not_isNaN_of_isFinite hfin' h
      · exact not_isNaN_of_isFinite hfin h
    have hsum : signedUnits (ofNat a) + signedUnits (ofNat d) =
        (((a + d) * unitsPerOne : Nat) : ℤ) := by
      rw [signedUnits, signedUnits, hneg, hneg', hunits, hunits', if_neg (by decide),
        if_neg (by decide), Nat.add_mul, Nat.cast_add]
    rw [if_neg hnan, if_neg (not_not_intro hfin'), if_neg (not_not_intro hfin), hsum, hneg, hneg']
    have hround : roundUnits ((a + d) * unitsPerOne) 1 = roundUnits (a + d) 1 * unitsPerOne :=
      roundUnits_mul_pow (a + d) 1074
    dsimp only
    split
    case isTrue hzero =>
      rw [Nat.cast_eq_zero] at hzero
      rw [ofNat, ← hround, hzero]
      rfl
    case isFalse =>
      have hsign : decide ((((a + d) * unitsPerOne : Nat) : ℤ) < 0) = false :=
        decide_eq_false (Int.not_lt.mpr (Int.natCast_nonneg _))
      rw [hsign, Int.natAbs_natCast, hround]
      rfl
  · obtain ⟨-, hinfinite, hnotNaN, -⟩ := infinity_spec false
    have hnan : ¬ (IsNaN (infinity false) ∨ IsNaN (ofNat d)) := by
      rintro (h | h)
      · exact hnotNaN h
      · exact not_isNaN_of_isFinite hfin h
    rw [hinf, if_neg hnan, if_pos hinfinite, if_neg fun h => h.1 hfin]
    have hle : a ≤ roundUnits (a + d) 1 := le_roundUnits ha Nat.one_pos (by omega)
    exact (ofUnits_of_overflow false (hge.trans (Nat.mul_le_mul_right _ hle))).symm

theorem overflow_le_mul_iff (a : Nat) : overflow ≤ a * unitsPerOne ↔ 2 ^ 1024 ≤ a := by
  have hpow : ∀ i j, overflowExponent = i + j → overflow = 2 ^ i * 2 ^ j := by
    intro i j h
    rw [overflow, h, Nat.pow_add]
  have heq : overflow = 2 ^ 1024 * unitsPerOne := by
    unfold unitsPerOne
    exact hpow _ _ rfl
  rw [heq]
  exact Nat.mul_le_mul_right_iff unitsPerOne_pos

end Whole

/-! ## §5 Fields -/

section Fields

variable {x : BitVec 64}

theorem pack_fields (x : BitVec 64) : pack (negative x) (exponent x) (fraction x) = x := by
  apply BitVec.eq_of_toNat_eq
  rw [toNat_pack (exponent_lt x) (fraction_lt x), negative, BitVec.msb_eq_decide, exponent, fraction]
  have := x.isLt
  simp only [decide_eq_true_eq]
  split <;> omega

theorem isFloat_units (x : BitVec 64) : IsFloat (units x) := by
  refine isFloat_mul_pow ?_
  have := fraction_lt x
  unfold significand
  split <;> omega

theorem ofUnits_units (h : IsFinite x) : ofUnits (negative x) (units x) = x := by
  have hfrac := fraction_lt x
  have hexp := exponent_lt x
  conv_rhs => rw [← pack_fields x]
  unfold IsFinite at h
  by_cases hzero : exponent x = 0
  · have hunits : units x = fraction x := by
      rw [units, significand, if_pos hzero, hzero, Nat.zero_sub, Nat.pow_zero, Nat.mul_one]
    rw [ofUnits, hunits, if_pos hfrac, hzero]
  · have hunits : units x = (2 ^ 52 + fraction x) * 2 ^ (exponent x - 1) := by
      rw [units, significand, if_neg hzero]
    have hpos := Nat.two_pow_pos (exponent x - 1)
    have hlow : 2 ^ 52 ≤ units x := by
      rw [hunits]
      exact (Nat.le_add_right _ _).trans (Nat.le_mul_of_pos_right _ hpos)
    have hexcess : excess (units x) = exponent x - 1 := by
      rw [hunits]
      refine excess_eq ?_ ?_
      · rw [Nat.pow_add]
        exact Nat.mul_le_mul_right _ (Nat.le_add_right _ _)
      · rw [Nat.pow_add]
        exact Nat.mul_lt_mul_of_pos_right (by omega) hpos
    rw [ofUnits, if_neg (Nat.not_lt.mpr hlow), hexcess, if_pos (by omega), hunits,
      Nat.mul_div_cancel _ hpos, Nat.add_sub_cancel_left]
    congr 1
    omega

theorem not_isFinite_iff : ¬ IsFinite x ↔ IsNaN x ∨ x = infinity (negative x) := by
  have hinf : x = infinity (negative x) ↔ exponent x = 2047 ∧ fraction x = 0 := by
    constructor
    · intro h
      rw [h, infinity]
      exact ⟨exponent_pack (by omega) (by omega), fraction_pack (by omega) (by omega)⟩
    · rintro ⟨hexp, hfrac⟩
      rw [infinity, ← hexp, ← hfrac, pack_fields]
  rw [hinf]
  unfold IsFinite IsNaN
  omega

theorem units_neg (x : BitVec 64) : units (neg x) = units x ∧ negative (neg x) = !negative x ∧
    (IsFinite (neg x) ↔ IsFinite x) := by
  have hexp : exponent (neg x) = exponent x := exponent_pack (exponent_lt x) (fraction_lt x)
  have hfrac : fraction (neg x) = fraction x := fraction_pack (exponent_lt x) (fraction_lt x)
  refine ⟨?_, negative_pack (exponent_lt x) (fraction_lt x), ?_⟩
  · rw [units, units, significand, significand, hexp, hfrac]
  · rw [IsFinite, IsFinite, hexp]

theorem isFinite_of_lt (h : units x < overflow) : IsFinite x := by
  intro hexp
  have hlow : 2 ^ 52 ≤ significand x := by
    rw [significand, hexp, if_neg (by decide)]
    exact Nat.le_add_right _ _
  have hpow : ∀ i j k, overflowExponent = i + j → j = k → 2 ^ i ≤ significand x →
      overflow ≤ significand x * 2 ^ k := by
    rintro i j _ hsum rfl hle
    rw [overflow, hsum, Nat.pow_add]
    exact Nat.mul_le_mul_right _ hle
  refine Nat.not_lt.mpr (hpow 52 2046 (exponent x - 1) (by decide) ?_ hlow) h
  rw [hexp]

theorem infinity_true_ne : infinity true ≠ infinity false := by
  intro heq
  have h := (infinity_spec true).1
  rw [heq, (infinity_spec false).1] at h
  exact absurd h (by decide)

end Fields

end Lib.Binary64
