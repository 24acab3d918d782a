/-
V12.Engine.NumberFormatTheorems — the formatted texts of a number.

The texts of the host are ECMAScript's layouts of the digits it rounds to
(`formatScientific_eq`, `toPrecision_eq`); a carry to one digit more is the same
at both places where `toPrecision` rounds. So only the rounding and the sign of
zero are left to compare.
-/
import V12.Engine.NumberFormat

namespace V12.Engine

open Lib.Binary64 Lib.Decimal
open V12.Interp (ShortestDigits Scientific pointed signText zeros NumberToString NegativeZero)

/-! ## §1 Arguments -/

theorem digitCount_ofNat {d low high : Nat} (message : String) (hlow : low ≤ d) (hhigh : d ≤ high)
    (hsmall : d < 2 ^ 53) : digitCount low high message (ofNat d) = .ok d := by
  obtain ⟨hneg, hfin, hunits⟩ := ofNat_small hsmall
  have htrunc : trunc (ofNat d) = d := by
    rw [trunc_of_units hunits, hneg]
    rfl
  rw [digitCount, if_pos, htrunc]
  · rfl
  · rw [hunits]
    exact ⟨hfin, .inl hneg, Nat.mul_le_mul_right _ hlow, Nat.mul_le_mul_right _ hhigh⟩

/-! ## §2 Magnitudes -/

section Magnitudes

variable {x : BitVec 64}

theorem magnitude_nonneg (x : BitVec 64) : 0 ≤ magnitude x :=
  div_nonneg (Nat.cast_nonneg _) (Nat.cast_nonneg _)

theorem magnitude_pos (h : units x ≠ 0) : 0 < magnitude x :=
  div_pos (Nat.cast_pos.mpr (Nat.pos_of_ne_zero h)) (Nat.cast_pos.mpr unitsPerOne_pos)

theorem magnitude_of_units_eq_zero (h : units x = 0) : magnitude x = 0 := by
  rw [magnitude, h, Nat.cast_zero, zero_div]

theorem le_magnitude_iff (n : Nat) : (n : ℚ) ≤ magnitude x ↔ n * unitsPerOne ≤ units x := by
  rw [magnitude, le_div_iff₀ (Nat.cast_pos.mpr unitsPerOne_pos), ← Nat.cast_mul, Nat.cast_le]

theorem signed_eq (h : ¬ NegativeZero x) (m : List Char) : signed x m = signText x ++ m := by
  unfold signed signText
  by_cases hneg : negative x = true
  · have hne : units x ≠ 0 := fun hzero => h ⟨hzero, hneg⟩
    rw [if_pos ⟨hneg, hne⟩, if_pos hneg]
    rfl
  · rw [if_neg (fun h => hneg h.1), if_neg hneg, List.nil_append]

theorem signed_negativeZero (h : NegativeZero x) (m : List Char) :
    signed x m = m ∧ signText x ++ m = '-' :: m := by
  rw [signed, if_neg (fun hsigned => hsigned.2 h.1), signText, if_pos h.2]
  exact ⟨rfl, rfl⟩

end Magnitudes

/-! ## §3 Layouts -/

section Layouts

variable {m m' : List Char} {e : Int} {p n d : Nat}

def AllDigits (m : List Char) : Prop := ∀ c ∈ m, c.isDigit = true

theorem allDigits_toDigits (n : Nat) : AllDigits (Nat.toDigits 10 n) := Interp.isDigit_toDigits n

theorem allDigits_zeros (n : Nat) : AllDigits (List.replicate n '0') := by
  intro c hc
  rw [List.eq_of_mem_replicate hc]
  rfl

theorem withFraction_eq (d n : Nat) : withFraction d n = fixedLayout d n := by
  have hlen : (Nat.toDigits 10 n).length = len n := rfl
  have hpos := len_pos n
  unfold withFraction fixedLayout
  by_cases hd : d = 0
  · have hz : ((d : Int) + 1 - len n).toNat = 0 := by omega
    simp only [if_pos hd, zeros, hz, List.replicate_zero, List.nil_append]
  · have hz : ((d : Int) + 1 - len n).toNat = d + 1 - len n := by omega
    simp only [if_neg hd, zeros, hz, hlen]
    by_cases hle : len n ≤ d
    · rw [if_pos hle]
    · have h0 : d + 1 - len n = 0 := by omega
      rw [if_neg hle, h0, List.replicate_zero, List.nil_append]

theorem exponential_eq (m : List Char) (e : Int) :
    pointed m ++ 'e' :: exponentText e = exponentialLayout m e := by
  unfold exponentialLayout exponentText
  by_cases h0 : e = 0
  · rw [if_pos h0, h0]
    rfl
  · rw [if_neg h0]
    have hsign : e ≥ 0 ↔ e > 0 := by omega
    simp only [hsign]

theorem filter_point (h : AllDigits m) : m.filter (· ≠ '.') = m := by
  refine List.filter_eq_self.mpr fun c hc => decide_eq_true ?_
  rintro rfl
  exact absurd (h '.' hc) (by decide)

theorem filter_pointed_point (h : AllDigits m) (hne : m ≠ []) (s : Bool) :
    ((if s then ['-'] else []) ++ pointed m).filter (· ≠ '.') =
      (if s then ['-'] else []) ++ m := by
  have hpointed : (pointed m).filter (· ≠ '.') = m := by
    match m with
    | [] => rfl
    | [c] => exact filter_point h
    | c :: c' :: rest =>
      have hrest : ('.' :: c' :: rest).filter (· ≠ '.') = c' :: rest := by
        rw [List.filter_cons_of_neg (by decide)]
        exact filter_point fun a ha => h a (List.mem_cons_of_mem c ha)
      have hc := filter_point (m := [c]) fun a ha => by
        rw [List.mem_singleton.mp ha]
        exact h c List.mem_cons_self
      calc (pointed (c :: c' :: rest)).filter (· ≠ '.')
          = [c].filter (· ≠ '.') ++ ('.' :: c' :: rest).filter (· ≠ '.') :=
            List.filter_append (p := fun a => decide (a ≠ '.')) [c] ('.' :: c' :: rest)
        _ = c :: c' :: rest := by rw [hc, hrest]; rfl
  rw [List.filter_append, hpointed]
  cases s <;> rfl

theorem precisionLayout_fixed (hlen : len n = p) (hp : e + 1 < p) (he : -6 ≤ e) :
    fixedLayout (p - 1 - e).toNat n = precisionLayout p (Nat.toDigits 10 n) e := by
  have hlen' : (Nat.toDigits 10 n).length = p := hlen
  have h1 : ¬ (e < -6 ∨ e ≥ p) := by omega
  have h2 : ¬ e = p - 1 := by omega
  have hd : (p - 1 - e).toNat ≠ 0 := by omega
  unfold fixedLayout precisionLayout
  rw [if_neg h1, if_neg h2]
  simp only [if_neg hd, hlen']
  by_cases he0 : e ≥ 0
  · have hle : ¬ p ≤ (p - 1 - e).toNat := by omega
    have htake : p - (p - 1 - e).toNat = (e + 1).toNat := by omega
    rw [if_pos he0, if_neg hle, hlen', htake]
  · have hle : p ≤ (p - 1 - e).toNat := by omega
    obtain ⟨z, hz⟩ : ∃ z : Nat, (p - 1 - e).toNat + 1 - p = z + 1 ∧ (-(e + 1)).toNat = z :=
      ⟨(-(e + 1)).toNat, by omega, rfl⟩
    rw [if_neg he0, if_pos hle, hz.1, List.replicate_succ]
    have htake : (('0' :: List.replicate z '0') ++ Nat.toDigits 10 n).length -
        (p - 1 - e).toNat = 1 := by
      rw [List.length_append, List.length_cons, List.length_replicate, hlen']
      omega
    rw [htake, zeros, hz.2]
    rfl

theorem pointed_injective (hm : AllDigits m) (hm' : AllDigits m') (h : pointed m = pointed m') :
    m = m' := by
  have hfilter := congrArg (List.filter Char.isDigit) h
  rwa [Interp.filter_pointed hm, Interp.filter_pointed hm'] at hfilter

theorem exponentialLayout_injective (hm : AllDigits m) (hm' : AllDigits m')
    (h : exponentialLayout m e = exponentialLayout m' e) : m = m' := by
  rw [← exponential_eq, ← exponential_eq] at h
  exact pointed_injective hm hm' (List.append_cancel_right h)

theorem precisionLayout_injective (hm : AllDigits m) (hm' : AllDigits m')
    (h : precisionLayout p m e = precisionLayout p m' e) : m = m' := by
  have hsplit : ∀ {l : List Char} (k : Nat), AllDigits l →
      (l.take k ++ '.' :: l.drop k).filter Char.isDigit = l := by
    intro l k hl
    have htake := Interp.filter_digits fun c hc => hl c (List.mem_of_mem_take (i := k) hc)
    have hdrop := Interp.filter_digits fun c hc => hl c (List.mem_of_mem_drop (i := k) hc)
    rw [List.filter_append, htake, List.filter_cons_of_neg (by decide), hdrop,
      List.take_append_drop]
  unfold precisionLayout at h
  split at h
  · exact pointed_injective hm hm' (List.append_cancel_right h)
  · split at h
    · exact h
    · split at h
      · have hfilter := congrArg (List.filter Char.isDigit) h
        rwa [hsplit _ hm, hsplit _ hm'] at hfilter
      · exact List.append_cancel_left h

theorem fixedLayout_injective {n' : Nat} (h : fixedLayout d n = fixedLayout d n') : n = n' := by
  have hread : ∀ k, Nat.ofDigitChars 10 ((fixedLayout d k).filter Char.isDigit) 0 = k := by
    intro k
    have hdigits := Interp.filter_digits (Interp.isDigit_toDigits k)
    unfold fixedLayout
    by_cases hd : d = 0
    · rw [if_pos hd, hdigits, Nat.ofDigitChars_ten_toDigits]
    · simp only [if_neg hd]
      generalize hpad : (if (Nat.toDigits 10 k).length ≤ d then
        List.replicate (d + 1 - (Nat.toDigits 10 k).length) '0' ++ Nat.toDigits 10 k
        else Nat.toDigits 10 k) = l
      have hl : AllDigits l ∧ Nat.ofDigitChars 10 l 0 = k := by
        rw [← hpad]
        split
        · refine ⟨fun c hc => ?_, ?_⟩
          · rcases List.mem_append.mp hc with hz | ht
            · exact allDigits_zeros _ c hz
            · exact allDigits_toDigits k c ht
          · rw [Nat.ofDigitChars_append, Nat.ofDigitChars_replicate_zero, Nat.mul_zero,
              Nat.ofDigitChars_ten_toDigits]
        · exact ⟨allDigits_toDigits k, Nat.ofDigitChars_ten_toDigits⟩
      generalize l.length - d = k'
      have htake := Interp.filter_digits fun c hc => hl.1 c (List.mem_of_mem_take (i := k') hc)
      have hdrop := Interp.filter_digits fun c hc => hl.1 c (List.mem_of_mem_drop (i := k') hc)
      rw [List.filter_append, htake, List.filter_cons_of_neg (by decide), hdrop,
        List.take_append_drop, hl.2]
  have hvalue := congrArg (fun t => Nat.ofDigitChars 10 (t.filter Char.isDigit) 0) h
  simpa only [hread] using hvalue

end Layouts

/-! ## §4 The digits of the host -/

section Digits

variable {x : BitVec 64} {p d : Nat}

theorem roundEven_scaledTo (hne : units x ≠ 0) (hp : 1 ≤ p) :
    10 ^ (p - 1) ≤ roundEven (scaledTo p (magnitude x)) ∧
      roundEven (scaledTo p (magnitude x)) ≤ 10 ^ p := by
  obtain ⟨hlow, hhigh⟩ := scaledTo_bounds (magnitude_pos hne) hp
  exact (round_bounds (j := 10 ^ (p - 1)) (k := 10 ^ p) (by exact_mod_cast hlow)
    (by exact_mod_cast hhigh)).2

theorem scaledTo_nonneg (p : Nat) (x : BitVec 64) : 0 ≤ scaledTo p (magnitude x) :=
  mul_nonneg (magnitude_nonneg x) (le_of_lt (zpow_pos (by norm_num) _))

theorem evenTie_zero : ¬ EvenTie 0 := by
  rintro ⟨h, -⟩
  rw [Nat.floor_zero, Nat.cast_zero] at h
  norm_num at h

theorem units_ne_of_evenTie {c : ℚ} (h : EvenTie (magnitude x * c)) : units x ≠ 0 := by
  intro hzero
  rw [magnitude_of_units_eq_zero hzero, zero_mul] at h
  exact evenTie_zero h

theorem exists_hostDigits (hne : units x ≠ 0) (hp : 1 ≤ p) :
    ∃ n, (hostDigits p x).1 = Nat.toDigits 10 n ∧ len n = p ∧
      carried p (roundEven (scaledTo p (magnitude x))) (Int.log 10 (magnitude x)) =
        (n, (hostDigits p x).2) := by
  obtain ⟨hlow, -⟩ := roundEven_scaledTo hne hp
  obtain ⟨hclow, hchigh⟩ := carried_bounds (Int.log 10 (magnitude x)) hp hlow
  unfold hostDigits
  rw [if_neg hne]
  have hlen := len_eq hclow (by rwa [Nat.sub_add_cancel hp])
  rw [Nat.sub_add_cancel hp] at hlen
  exact ⟨_, rfl, hlen, rfl⟩

theorem allDigits_hostDigits (hp : 1 ≤ p) :
    AllDigits (hostDigits p x).1 ∧ (hostDigits p x).1 ≠ [] := by
  by_cases hne : units x = 0
  · rw [hostDigits, if_pos hne]
    exact ⟨allDigits_zeros p, fun h => by simp at h; omega⟩
  · obtain ⟨n, hn, -⟩ := exists_hostDigits hne hp
    rw [hn]
    exact ⟨allDigits_toDigits n, Nat.toDigits_ne_nil⟩

/-- **Without a lost tie the host's digits are prescribed.** -/
theorem digitsOf_hostDigits (hp : 1 ≤ p) (h : ¬ EvenTie (scaledTo p (magnitude x))) :
    DigitsOf x p (hostDigits p x).1 (hostDigits p x).2 := by
  by_cases hne : units x = 0
  · rw [hostDigits, if_pos hne]
    exact .zero hne
  · have hround := (roundEven_eq_roundUp_iff (scaledTo_nonneg p x)).mpr h
    have hnear := nearestDigits_carried (magnitude_pos hne) hp
    rw [← hround] at hnear
    rw [hostDigits, if_neg hne]
    exact .nonzero hne hnear

theorem DigitsOf.unique {m m' : List Char} {e e' : Int} (hp : 1 ≤ p) (h : DigitsOf x p m e)
    (h' : DigitsOf x p m' e') : m = m' ∧ e = e' := by
  cases h with
  | zero hzero =>
    cases h' with
    | zero => exact ⟨rfl, rfl⟩
    | nonzero hne => exact absurd hzero hne
  | nonzero hne hn =>
    cases h' with
    | zero hzero => exact absurd hzero hne
    | nonzero _ hn' =>
      obtain ⟨rfl, rfl⟩ := hn.unique hp hn'
      exact ⟨rfl, rfl⟩

/-- **On a lost tie the prescribed digits are others**, with the same exponent. -/
theorem digitsOf_of_evenTie (hp : 1 ≤ p) (h : EvenTie (scaledTo p (magnitude x))) :
    ∃ m, DigitsOf x p m (hostDigits p x).2 ∧ AllDigits m ∧ m ≠ (hostDigits p x).1 := by
  have hne := units_ne_of_evenTie h
  obtain ⟨-, hhigh⟩ := scaledTo_bounds (magnitude_pos hne) hp
  obtain ⟨heven, hup⟩ := roundEven_of_evenTie (scaledTo_nonneg p x) h
  have hnear := nearestDigits_carried (magnitude_pos hne) hp
  have hfloor : ⌊scaledTo p (magnitude x)⌋₊ < 10 ^ p := by
    rw [Nat.floor_lt (scaledTo_nonneg p x)]
    exact_mod_cast hhigh
  have hpow : 10 ^ p % 2 = 0 := by
    rw [← Nat.sub_add_cancel hp, Nat.pow_succ]
    omega
  have hparity := h.2
  -- the larger number is odd, so it is no power of 10
  have hsucc : ⌊scaledTo p (magnitude x)⌋₊ + 1 < 10 ^ p := by omega
  rw [hup, carried, if_pos hsucc] at hnear
  rw [hostDigits, if_neg hne, heven]
  simp only [carried, if_pos hfloor]
  refine ⟨_, .nonzero hne hnear, allDigits_toDigits _, fun heq => ?_⟩
  have := toDigits_injective heq
  omega

theorem roundEven_again (hne : units x ≠ 0) (hp : 1 ≤ p) {n : Nat} {e : Int}
    (h : carried p (roundEven (scaledTo p (magnitude x))) (Int.log 10 (magnitude x)) = (n, e))
    (he : e ≤ p - 1) : roundEven (magnitude x * 10 ^ (p - 1 - e).toNat) = n := by
  obtain ⟨-, hhigh⟩ := roundEven_scaledTo hne hp
  have hten : (10 : ℚ) ≠ 0 := by norm_num
  have hpow : (10 : ℚ) ^ (p - 1 - e).toNat = 10 ^ ((p : Int) - 1 - e) := by
    rw [← zpow_natCast]
    congr 1
    omega
  rw [hpow]
  unfold carried at h
  split at h
  case isTrue =>
    obtain ⟨rfl, rfl⟩ := Prod.mk.inj h
    rfl
  case isFalse hcarry =>
    obtain ⟨rfl, rfl⟩ := Prod.mk.inj h
    have hround : roundEven (scaledTo p (magnitude x)) = 10 ^ p :=
      Nat.le_antisymm hhigh (Nat.not_lt.mp hcarry)
    have hr := scaledTo_nonneg p x
    obtain ⟨-, hlt⟩ := scaledTo_bounds (magnitude_pos hne) hp
    have hnot : ¬ EvenTie (scaledTo p (magnitude x)) := by
      intro htie
      rw [(roundEven_of_evenTie hr htie).1] at hround
      have := (Nat.floor_lt hr).mpr (by exact_mod_cast hlt : scaledTo p (magnitude x) < (10 ^ p : Nat))
      omega
    have hle := (roundUp_bounds hr).1
    rw [← (roundEven_eq_roundUp_iff hr).mpr hnot, hround] at hle
    have hshift : magnitude x * 10 ^ ((p : Int) - 1 - (Int.log 10 (magnitude x) + 1)) =
        scaledTo p (magnitude x) / 10 := by
      have hexp : (p : Int) - 1 - (Int.log 10 (magnitude x) + 1) =
          p - 1 - Int.log 10 (magnitude x) - 1 := by ring
      rw [hexp, zpow_sub₀ hten, zpow_one, ← mul_div_assoc]
      rfl
    have hsplit : (10 : ℚ) ^ p = 10 ^ (p - 1) * 10 := by
      rw [← pow_succ, Nat.sub_add_cancel hp]
    push_cast at hle
    rw [hsplit] at hle hlt
    rw [hshift]
    refine (round_eq_of_near (by positivity) ?_ ?_).2
    · push_cast
      linarith
    · push_cast
      linarith

end Digits

/-! ## §5 The texts of the code -/

section Texts

variable {x : BitVec 64} {p d : Nat}

theorem formatScientific_eq (host : ShortestDigits) (x : BitVec 64) (d : Nat) :
    formatScientific host x (some d) = signText x ++
      exponentialLayout (hostDigits (d + 1) x).1 (hostDigits (d + 1) x).2 := by
  rw [← exponential_eq, formatScientific, scientific, List.append_assoc]

/-- The text of `toPrecision` for a finite number. -/
def precisionText (p : Nat) (n : BitVec 64) : List Char :=
  let sci := scientific (p - 1) n
  if sci.exp + 1 > p ∨ sci.exp < -6 then sci.mantissa ++ 'e' :: exponentText sci.exp
  else if sci.exp + 1 = p then sci.mantissa.filter (· ≠ '.')
  else fixed (p - 1 - sci.exp).toNat n

theorem precisionText_eq (hp : 1 ≤ p) (x : BitVec 64) :
    precisionText p x = signText x ++ precisionLayout p (hostDigits p x).1 (hostDigits p x).2 := by
  obtain ⟨hdigits, hne⟩ := allDigits_hostDigits (x := x) hp
  unfold precisionText scientific
  rw [Nat.sub_add_cancel hp]
  dsimp only
  by_cases h1 : (hostDigits p x).2 + 1 > p ∨ (hostDigits p x).2 < -6
  · have h1' : (hostDigits p x).2 < -6 ∨ (hostDigits p x).2 ≥ p := by omega
    have hsign : (hostDigits p x).2 ≥ 0 ↔ (hostDigits p x).2 > 0 := by omega
    rw [if_pos h1, precisionLayout, if_pos h1', exponentText, List.append_assoc]
    simp only [hsign]
  have h1' : ¬ ((hostDigits p x).2 < -6 ∨ (hostDigits p x).2 ≥ p) := by omega
  rw [if_neg h1]
  by_cases h2 : (hostDigits p x).2 + 1 = p
  · have h2' : (hostDigits p x).2 = p - 1 := by omega
    rw [if_pos h2, precisionLayout, if_neg h1', if_pos h2']
    exact filter_pointed_point hdigits hne _
  · rw [if_neg h2, fixed, withFraction_eq]
    refine congrArg (signText x ++ ·) ?_
    by_cases hzero : units x = 0
    · have hhost : hostDigits p x = (List.replicate p '0', 0) := by rw [hostDigits, if_pos hzero]
      rw [hhost] at h1 h1' h2 ⊢
      rw [magnitude_of_units_eq_zero hzero, zero_mul]
      have hround : roundEven 0 = 0 := (round_eq_of_near (n := 0) (le_refl _) (by norm_num)
        (by norm_num)).2
      obtain ⟨j, rfl⟩ : ∃ j, p = j + 2 := ⟨p - 2, by omega⟩
      have hd : (((j + 2 : Nat) : Int) - 1 - 0).toNat = j + 1 := by omega
      have h2' : ¬ (0 : Int) = ((j + 2 : Nat) : Int) - 1 := by omega
      rw [hround, hd, precisionLayout, if_neg h1', if_neg h2', if_pos (le_refl _)]
      simp [fixedLayout, List.replicate_succ, ← List.replicate_succ']
    · obtain ⟨n, hn, hlen, hcarried⟩ := exists_hostDigits hzero hp
      rw [roundEven_again hzero hp hcarried (by omega), hn]
      exact precisionLayout_fixed hlen (by omega) (by omega)

/-- The code's text has the digits `written`, what is prescribed is the text with `right`. -/
structure Laid (host : ShortestDigits) (f : Format) (x : BitVec 64) (d : Nat)
    (written right : List Char) : Prop where
  text : f.text host x (some (ofNat d)) = .ok (signText x ++ written)
  prescribed : ∀ t, f.Prescribed x d t ↔ t = signed x right
  same : written = right ↔ ¬ f.LostTie x d
  lost : f.LostTie x d → units x ≠ 0

variable (host : ShortestDigits)

theorem laid_exponential (hfin : IsFinite x) (hd : Format.exponential.Admissible d) :
    ∃ written right, Laid host .exponential x d written right := by
  have hp : 1 ≤ d + 1 := Nat.le_add_left 1 d
  have htext : numberToExponential host x (some (ofNat d)) = .ok (signText x ++
      exponentialLayout (hostDigits (d + 1) x).1 (hostDigits (d + 1) x).2) := by
    have hd' : d ≤ 100 := hd
    rw [numberToExponential, if_neg (not_isNaN_of_isFinite hfin), if_neg (not_not_intro hfin),
      digitCount_ofNat _ (Nat.zero_le d) hd' (by omega), ← formatScientific_eq host]
    rfl
  have hunique : ∀ {m e}, DigitsOf x (d + 1) m e → ∀ t, ToExponential x d t ↔
      t = signed x (exponentialLayout m e) := by
    intro m e h t
    constructor
    · rintro ⟨h'⟩
      obtain ⟨rfl, rfl⟩ := h'.unique hp h
      rfl
    · rintro rfl
      exact ⟨h⟩
  by_cases htie : EvenTie (scaledTo (d + 1) (magnitude x))
  · obtain ⟨m, hm, hdigits, hne⟩ := digitsOf_of_evenTie hp htie
    refine ⟨_, _, htext, hunique hm, iff_of_false (fun heq => hne ?_) (not_not_intro htie),
      fun _ => units_ne_of_evenTie htie⟩
    exact (exponentialLayout_injective (allDigits_hostDigits hp).1 hdigits heq).symm
  · exact ⟨_, _, htext, hunique (digitsOf_hostDigits hp htie), iff_of_true rfl htie,
      fun h => absurd h htie⟩

theorem laid_precision (hfin : IsFinite x) (hd : Format.precision.Admissible d) :
    ∃ written right, Laid host .precision x d written right := by
  have hp : 1 ≤ d := hd.1
  have htext : numberToPrecision host x (some (ofNat d)) = .ok (signText x ++
      precisionLayout d (hostDigits d x).1 (hostDigits d x).2) := by
    have hd' : d ≤ 100 := hd.2
    rw [← precisionText_eq hp]
    unfold numberToPrecision
    simp only [digitCount_ofNat _ hp hd' (by omega), if_neg (not_isNaN_of_isFinite hfin),
      if_neg (not_not_intro hfin)]
    rfl
  have hunique : ∀ {m e}, DigitsOf x d m e → ∀ t, ToPrecision x d t ↔
      t = signed x (precisionLayout d m e) := by
    intro m e h t
    constructor
    · rintro ⟨h'⟩
      obtain ⟨rfl, rfl⟩ := h'.unique hp h
      rfl
    · rintro rfl
      exact ⟨h⟩
  by_cases htie : EvenTie (scaledTo d (magnitude x))
  · obtain ⟨m, hm, hdigits, hne⟩ := digitsOf_of_evenTie hp htie
    refine ⟨_, _, htext, hunique hm, iff_of_false (fun heq => hne ?_) (not_not_intro htie),
      fun _ => units_ne_of_evenTie htie⟩
    exact (precisionLayout_injective (allDigits_hostDigits hp).1 hdigits heq).symm
  · exact ⟨_, _, htext, hunique (digitsOf_hostDigits hp htie), iff_of_true rfl htie,
      fun h => absurd h htie⟩

theorem laid_fixed (hfin : IsFinite x) (hd : Format.fixed.Admissible d)
    (hsmall : units x < 10 ^ 21 * unitsPerOne) :
    ∃ written right, Laid host .fixed x d written right := by
  have hmagnitude : magnitude x < 10 ^ 21 := by
    have := (not_congr (le_magnitude_iff (x := x) (10 ^ 21))).mpr (Nat.not_le.mpr hsmall)
    push_cast at this
    exact not_le.mp this
  have htext : numberToFixed host x (some (ofNat d)) = .ok (signText x ++
      fixedLayout d (roundEven (magnitude x * 10 ^ d))) := by
    have hd' : d ≤ 100 := hd
    rw [← withFraction_eq]
    unfold numberToFixed
    simp only [digitCount_ofNat _ (Nat.zero_le d) hd' (by omega),
      if_neg (not_isNaN_of_isFinite hfin), if_neg (not_not_intro hfin),
      if_neg (Nat.not_le.mpr hsmall)]
    rfl
  have hunit : (0 : ℚ) < 10 ^ (-(d : Int)) := zpow_pos (by norm_num) _
  have hnear := nearestMultiple_roundUp (magnitude_nonneg x) hunit
  rw [zpow_neg, div_inv_eq_mul, zpow_natCast, ← zpow_natCast (10 : ℚ) d, ← zpow_neg] at hnear
  rw [zpow_natCast] at hnear
  have hunique : ∀ t, ToFixed x d t ↔
      t = signed x (fixedLayout d (roundUp (magnitude x * 10 ^ d))) := by
    intro t
    constructor
    · intro h
      cases h with
      | large hlarge => exact absurd hmagnitude (not_lt.mpr hlarge)
      | small _ hn =>
        have heq := hn.unique hnear
        rw [Nat.cast_inj] at heq
        rw [heq]
    · rintro rfl
      exact .small hmagnitude hnear
  have hr : 0 ≤ magnitude x * 10 ^ d := mul_nonneg (magnitude_nonneg x) (by positivity)
  refine ⟨_, _, htext, hunique, ?_, fun h => units_ne_of_evenTie h.2⟩
  change _ ↔ ¬ (units x < 10 ^ 21 * unitsPerOne ∧ EvenTie (magnitude x * 10 ^ d))
  have hsame := roundEven_eq_roundUp_iff hr
  exact ⟨fun h htie => hsame.mp (fixedLayout_injective h) htie.2,
    fun h => congrArg _ (hsame.mpr fun htie => h ⟨hsmall, htie⟩)⟩

theorem Laid.denotes_written_iff {f : Format} {written right : List Char}
    (h : Laid host f x d written right) :
    (∃ t, f.text host x (some (ofNat d)) = .ok t ∧ f.Prescribed x d t) ↔
      ¬ NegativeZero x ∧ ¬ f.LostTie x d := by
  constructor
  · rintro ⟨t, htext, hprescribed⟩
    obtain rfl : signText x ++ written = t := Except.ok.inj (h.text.symm.trans htext)
    have heq := (h.prescribed _).mp hprescribed
    have hlost : ¬ f.LostTie x d := by
      intro htie
      have hzero : ¬ NegativeZero x := fun hzero => h.lost htie hzero.1
      rw [signed_eq hzero] at heq
      exact h.same.mp (List.append_cancel_left heq) htie
    refine ⟨fun hzero => ?_, hlost⟩
    -- the text has one character too many
    rw [(signed_negativeZero hzero right).1, (signed_negativeZero hzero written).2,
      h.same.mpr hlost] at heq
    exact List.cons_ne_self _ _ heq
  · rintro ⟨hzero, hlost⟩
    refine ⟨_, h.text, (h.prescribed _).mpr ?_⟩
    rw [signed_eq hzero, h.same.mpr hlost]

theorem denotes_large (hfin : IsFinite x) (hd : Format.fixed.Admissible d)
    (hlarge : 10 ^ 21 * unitsPerOne ≤ units x) :
    ¬ NegativeZero x ∧ ∃ t, Format.fixed.text host x (some (ofNat d)) = .ok t ∧
      Format.fixed.Prescribed x d t := by
  have hzero : ¬ NegativeZero x := by
    rintro ⟨hunits, -⟩
    rw [hunits] at hlarge
    exact absurd (Nat.le_zero.mp hlarge)
      (Nat.ne_of_gt (Nat.mul_pos (Nat.pow_pos (by decide)) unitsPerOne_pos))
  have hmagnitude : 10 ^ 21 ≤ magnitude x := by
    have := (le_magnitude_iff (x := x) (10 ^ 21)).mpr hlarge
    push_cast at this
    exact this
  refine ⟨hzero, numberToString host x, ?_, .large hmagnitude ?_⟩
  · have hd' : d ≤ 100 := hd
    unfold Format.text numberToFixed
    simp only [digitCount_ofNat _ (Nat.zero_le d) hd' (by omega),
      if_neg (not_isNaN_of_isFinite hfin), if_neg (not_not_intro hfin), if_pos hlarge]
    rfl
  · rw [numberToString_eq host hzero]
    exact Interp.numberToString_sound host hzero

end Texts

/-- **Where the three methods give the prescribed text**: on every number but a negative zero,
unless a tie above an even number is rounded. -/
theorem denotes_iff (host : ShortestDigits) (f : Format) (x : BitVec 64) (d : Nat) :
    f.Denotes host x d ↔
      (IsFinite x → f.Admissible d → ¬ NegativeZero x ∧ ¬ f.LostTie x d) := by
  refine forall_congr' fun hfin => forall_congr' fun hd => ?_
  cases f with
  | fixed =>
    rcases Nat.lt_or_ge (units x) (10 ^ 21 * unitsPerOne) with hsmall | hlarge
    · obtain ⟨written, right, h⟩ := laid_fixed host hfin hd hsmall
      exact h.denotes_written_iff
    · obtain ⟨hzero, htext⟩ := denotes_large host hfin hd hlarge
      exact iff_of_true htext ⟨hzero, fun htie => absurd htie.1 (Nat.not_lt.mpr hlarge)⟩
  | exponential =>
    obtain ⟨written, right, h⟩ := laid_exponential host hfin hd
    exact h.denotes_written_iff
  | precision =>
    obtain ⟨written, right, h⟩ := laid_precision host hfin hd
    exact h.denotes_written_iff

def twoAndAHalf : BitVec 64 := ofUnits false (5 * 2 ^ 1073)

theorem magnitude_twoAndAHalf : IsFinite twoAndAHalf ∧ magnitude twoAndAHalf = 5 / 2 := by
  have hspec : ∀ k, k + 1 = 1074 → IsFinite (ofUnits false (5 * 2 ^ k)) ∧
      magnitude (ofUnits false (5 * 2 ^ k)) = 5 / 2 := by
    intro k hk
    have hstep := Nat.mul_lt_mul_of_pos_right (by decide : 5 < 2 ^ 3) (Nat.two_pow_pos k)
    have hlt := Nat.lt_of_lt_of_le hstep (pow_mul_pow_le (by unfold overflowExponent; omega))
    obtain ⟨-, hfin, hunits⟩ := ofUnits_spec false (isFloat_mul_pow (by decide)) hlt
    have hne : (2 : ℚ) ^ k ≠ 0 := pow_ne_zero k (by norm_num)
    refine ⟨hfin, ?_⟩
    rw [magnitude, hunits, unitsPerOne, ← hk]
    push_cast
    rw [pow_succ, mul_comm, mul_div_mul_left _ _ hne]
  exact hspec 1073 rfl

/-- `(2.5).toFixed(0)`. -/
theorem not_denotes : ¬ ∀ host (f : Format) x d, f.Denotes host x d := by
  intro h
  obtain ⟨host⟩ := Interp.nonempty_shortestDigits
  obtain ⟨hfin, hmagnitude⟩ := magnitude_twoAndAHalf
  have hsmall : units twoAndAHalf < 10 ^ 21 * unitsPerOne := by
    rw [← Nat.not_le, ← le_magnitude_iff, hmagnitude]
    norm_num
  obtain ⟨written, right, hlaid⟩ := laid_fixed (d := 0) host hfin (Nat.zero_le 100) hsmall
  have htext := h host .fixed twoAndAHalf 0 hfin (Nat.zero_le 100)
  refine ((hlaid.denotes_written_iff).mp htext).2 ⟨hsmall, ?_⟩
  have hfloor : ⌊(5 / 2 : ℚ)⌋₊ = 2 := by
    rw [Nat.floor_eq_iff (by norm_num)]
    norm_num
  rw [hmagnitude, pow_zero, mul_one, EvenTie, hfloor]
  norm_num

end V12.Engine
