/-
V12.Interp.NumberText — `number_to_string` of `v12-interp/src/ops.rs`.

The host formats a double with its shortest digits; the function takes the
digits and the exponent out of that text and lays them out again. What
ECMAScript's `Number::toString` allows stands beside it.
-/
import V12.Interp.StringNumberTheorems
import V12.Lib.Decimal

namespace V12.Interp

open Lib.Binary64 Lib.Decimal

/-! ## §1 The host -/

/-- The sides of the `e` in a scientific text. -/
structure Scientific where
  mantissa : List Char
  exp : Int

/-- The host's shortest decimal of a magnitude. -/
structure ShortestDigits where
  significand : Nat → Nat
  exponent : Nat → Int
  isShortest : ∀ u, IsFloat u → u ≠ 0 → IsShortest u (significand u) (exponent u)

/-- A point behind the first digit, if there are others. -/
def pointed : List Char → List Char
  | [] => []
  | [d] => [d]
  | d :: rest => d :: '.' :: rest

/-- The sign that the host writes, that of a zero too. -/
def signText (x : BitVec 64) : List Char := if negative x then ['-'] else []

def zeros (n : Int) : List Char := List.replicate n.toNat '0'

namespace ShortestDigits

variable (host : ShortestDigits)

def digits (x : BitVec 64) : List Char := Nat.toDigits 10 (host.significand (units x))

def point (x : BitVec 64) : Int :=
  host.exponent (units x) + len (host.significand (units x))

/-- `{:e}` of a finite double. -/
def lowerExp (x : BitVec 64) : Scientific :=
  if units x = 0 then ⟨signText x ++ ['0'], 0⟩
  else ⟨signText x ++ pointed (host.digits x), host.point x - 1⟩

/-- Digits with a point after `n` of them, never with an exponent. -/
def positional (ds : List Char) (n : Int) : List Char :=
  if n ≤ 0 then '0' :: '.' :: zeros (-n) ++ ds
  else if n < ds.length then ds.take n.toNat ++ '.' :: ds.drop n.toNat
  else ds ++ zeros (n - ds.length)

/-- `{}` of a double. -/
def display (x : BitVec 64) : List Char :=
  if IsNaN x then "NaN".toList
  else if ¬ IsFinite x then signText x ++ "inf".toList
  else if units x = 0 then signText x ++ ['0']
  else signText x ++ positional (host.digits x) (host.point x)

end ShortestDigits

theorem nonempty_shortestDigits : Nonempty ShortestDigits := by
  have hex : ∀ u, ∃ d : Nat × Int, IsFloat u → u ≠ 0 → IsShortest u d.1 d.2 := by
    intro u
    by_cases h : IsFloat u ∧ u ≠ 0
    · obtain ⟨s, e, hs⟩ := exists_isShortest h.1 h.2
      exact ⟨(s, e), fun _ _ => hs⟩
    · exact ⟨(0, 0), fun hu hpos => absurd ⟨hu, hpos⟩ h⟩
  choose d hd using hex
  exact ⟨⟨fun u => (d u).1, fun u => (d u).2, hd⟩⟩

/-! ## §2 The code -/

def numberToString (host : ShortestDigits) (n : BitVec 64) : List Char :=
  if IsNaN n then "NaN".toList
  else if n = infinity false then "Infinity".toList
  else if n = infinity true then "-Infinity".toList
  else if units n = 0 then
    if negative n then "-0".toList else "0".toList
  else
    let sci := host.lowerExp n
    let neg := sci.mantissa.head? = some '-'
    let digits := sci.mantissa.filter Char.isDigit
    let k : Int := digits.length
    let ni := sci.exp + 1
    let sign := if neg then ['-'] else []
    let body :=
      if k ≤ ni ∧ ni ≤ 21 then digits ++ zeros (ni - k)
      else if 0 < ni ∧ ni ≤ 21 then digits.take ni.toNat ++ '.' :: digits.drop ni.toNat
      else if -6 < ni ∧ ni ≤ 0 then '0' :: '.' :: zeros (-ni) ++ digits
      else
        let e := ni - 1
        let esign := if e < 0 then '-' else '+'
        let emag := Nat.toDigits 10 e.natAbs
        if k = 1 then digits ++ 'e' :: esign :: emag
        else digits.take 1 ++ '.' :: digits.drop 1 ++ 'e' :: esign :: emag
    sign ++ body

/-! ## §3 What ECMAScript allows -/

/-- The integers `n`, `k` and `s` of a number. -/
structure NumberDigits (x : BitVec 64) (n : Int) (k s : Nat) : Prop where
  one_le : 1 ≤ k
  low : 10 ^ (k - 1) ≤ s
  high : s < 10 ^ k
  value : scaled false s (n - k) = x
  least : ∀ (n' : Int) (k' s' : Nat), 1 ≤ k' → 10 ^ (k' - 1) ≤ s' → s' < 10 ^ k' →
    scaled false s' (n' - k') = x → k ≤ k'

def layout (n : Int) (k s : Nat) : List Char :=
  let ds := Nat.toDigits 10 s
  if -5 ≤ n ∧ n ≤ 21 then
    if k ≤ n then ds ++ zeros (n - k)
    else if 0 < n then ds.take n.toNat ++ '.' :: ds.drop n.toNat
    else '0' :: '.' :: zeros (-n) ++ ds
  else
    let sign := if n < 0 then '-' else '+'
    let exp := Nat.toDigits 10 (n - 1).natAbs
    if k = 1 then ds ++ 'e' :: sign :: exp
    else ds.take 1 ++ '.' :: ds.drop 1 ++ 'e' :: sign :: exp

/-- **`Number::toString`** in radix 10. The least significant digit is not always determined. -/
inductive NumberToString : BitVec 64 → List Char → Prop
  | nan {x : BitVec 64} (h : IsNaN x) : NumberToString x "NaN".toList
  | zero {x : BitVec 64} (hfin : IsFinite x) (h : units x = 0) : NumberToString x "0".toList
  | negative {x : BitVec 64} {t : List Char} (hnan : ¬ IsNaN x) (hne : units x ≠ 0)
      (hneg : negative x = true) (h : NumberToString (neg x) t) : NumberToString x ('-' :: t)
  | infinity : NumberToString (infinity false) "Infinity".toList
  | finite {x : BitVec 64} {n : Int} {k s : Nat} (hfin : IsFinite x) (hne : units x ≠ 0)
      (hpos : Lib.Binary64.negative x = false) (h : NumberDigits x n k s) :
      NumberToString x (layout n k s)

/-! ## §4 Decimals -/

section Decimals

variable {x : BitVec 64}

theorem scaled_eq (s : Bool) (m : Nat) (e : Int) : scaled s m e = ofUnits s (rounded m e) := by
  unfold scaled nearest rounded numerator denominator
  split
  case isTrue h =>
    have hneg : (-e).toNat = 0 := by omega
    rw [hneg, Nat.pow_zero]
  case isFalse h =>
    have hpos : e.toNat = 0 := by omega
    rw [hpos, Nat.pow_zero, Nat.mul_one]

theorem scaled_eq_iff (h : IsFinite x) (m : Nat) (e : Int) :
    scaled (negative x) m e = x ↔ rounded m e = units x := by
  rw [scaled_eq]
  constructor
  · intro heq
    rcases Nat.lt_or_ge (rounded m e) overflow with hlt | hge
    · have hunits := (ofUnits_spec (negative x) (isFloat_rounded m e) hlt).2.2
      rwa [heq, eq_comm] at hunits
    · rw [ofUnits_of_overflow _ hge] at heq
      rw [← heq] at h
      exact absurd h (infinity_spec _).2.1
  · intro heq
    rw [heq, ofUnits_units h]

end Decimals

/-! ## §5 The texts of the interpreter -/

theorem isDigit_toDigits (n : Nat) : ∀ c ∈ Nat.toDigits 10 n, c.isDigit = true :=
  fun _ hc => Nat.isDigit_of_mem_toDigits (by decide) (by decide) hc

theorem filter_digits {ds : List Char} (h : ∀ c ∈ ds, c.isDigit = true) :
    ds.filter Char.isDigit = ds := List.filter_eq_self.mpr h

theorem filter_pointed {ds : List Char} (h : ∀ c ∈ ds, c.isDigit = true) :
    (pointed ds).filter Char.isDigit = ds := by
  match ds with
  | [] => rfl
  | [d] => exact filter_digits h
  | d :: d' :: rest =>
    have hrest := filter_digits fun c hc => h c (List.mem_cons_of_mem d hc)
    rw [pointed, List.filter_cons_of_pos (h d List.mem_cons_self),
      List.filter_cons_of_neg (by decide), hrest]
    exact fun h => List.cons_ne_nil _ _ h

section Texts

variable (host : ShortestDigits) {x : BitVec 64}

theorem ShortestDigits.shortest (h : units x ≠ 0) :
    IsShortest (units x) (host.significand (units x)) (host.exponent (units x)) :=
  host.isShortest (units x) (isFloat_units x) h

theorem isFinite_of_units_eq_zero (h : units x = 0) : IsFinite x := by
  intro hexp
  rw [units, significand, hexp, if_neg (by decide)] at h
  have hpos := Nat.two_pow_pos (2047 - 1)
  rcases Nat.mul_eq_zero.mp h with hzero | hzero <;> omega

theorem lowerExp_parts (hne : units x ≠ 0) :
    (host.lowerExp x).mantissa.filter Char.isDigit = host.digits x ∧
      ((host.lowerExp x).mantissa.head? = some '-' ↔ negative x = true) ∧
      (host.lowerExp x).exp + 1 = host.point x := by
  have hdigits := isDigit_toDigits (host.significand (units x))
  have hcons : ∃ d rest, host.digits x = d :: rest := List.exists_cons_of_ne_nil Nat.toDigits_ne_nil
  obtain ⟨d, rest, hd⟩ := hcons
  have hminus : d ≠ '-' := by
    rintro rfl
    have := hdigits '-' (by
      change '-' ∈ host.digits x
      rw [hd]
      exact List.mem_cons_self)
    exact absurd this (by decide)
  unfold ShortestDigits.lowerExp signText
  rw [if_neg hne]
  refine ⟨?_, ?_, by simp⟩
  · by_cases hneg : negative x = true
    · simp only [hneg, if_true, List.cons_append, List.nil_append]
      rw [List.filter_cons_of_neg (by decide)]
      exact filter_pointed hdigits
    · simp only [hneg]
      exact filter_pointed hdigits
  · by_cases hneg : negative x = true
    · simp [hneg]
    · simp only [hneg, hd]
      cases rest with
      | nil => simp [pointed, hminus]
      | cons d' rest => simp [pointed, hminus]

theorem numberToString_finite (hfin : IsFinite x) (hne : units x ≠ 0) :
    numberToString host x = signText x ++
      layout (host.point x) (len (host.significand (units x))) (host.significand (units x)) := by
  obtain ⟨hdigits, hhead, hexp⟩ := lowerExp_parts host hne
  have hnan := not_isNaN_of_isFinite hfin
  have hinf : ∀ neg, x ≠ infinity neg := by
    rintro neg rfl
    exact (infinity_spec neg).2.1 hfin
  unfold numberToString
  rw [if_neg hnan, if_neg (hinf false), if_neg (hinf true), if_neg hne]
  simp only [hdigits, hhead, hexp]
  change signText x ++ _ = _
  refine congrArg (signText x ++ ·) ?_
  have hlen : (host.digits x).length = len (host.significand (units x)) := rfl
  unfold layout
  rw [hlen]
  change _ = (if _ then if _ then host.digits x ++ _ else _ else _)
  generalize host.point x = n
  generalize len (host.significand (units x)) = k
  by_cases hrange : -5 ≤ n ∧ n ≤ 21
  · rw [if_pos hrange]
    by_cases hk : (k : Int) ≤ n
    · rw [if_pos ⟨hk, hrange.2⟩, if_pos hk]
    · rw [if_neg (fun h => hk h.1), if_neg hk]
      by_cases hn : 0 < n
      · rw [if_pos ⟨hn, hrange.2⟩, if_pos hn]
        rfl
      · rw [if_neg (fun h => hn h.1), if_neg hn, if_pos (by omega)]
        rfl
  · have hk : ¬ ((k : Int) ≤ n ∧ n ≤ 21) := by omega
    rw [if_neg hrange, if_neg hk, if_neg (by omega), if_neg (by omega)]
    have hsign : n - 1 < 0 ↔ n < 0 := by omega
    simp only [hsign, Nat.cast_eq_one]
    rfl

theorem numberDigits (hfin : IsFinite x) (hne : units x ≠ 0) (hpos : negative x = false) :
    NumberDigits x (host.point x) (len (host.significand (units x)))
      (host.significand (units x)) := by
  have hshort := host.shortest hne
  have hvalue : ∀ m e, scaled false m e = x ↔ rounded m e = units x := by
    intro m e
    rw [← hpos]
    exact scaled_eq_iff hfin m e
  refine ⟨len_pos _, pow_le_of_len hshort.pos, lt_pow_len _, ?_, ?_⟩
  · rw [hvalue, ShortestDigits.point, add_sub_cancel_right]
    exact hshort.rounds
  · intro n' k' s' hk' hlow hhigh hs'
    rw [hvalue] at hs'
    have hlen := len_eq hlow (by rwa [Nat.sub_add_cancel hk'])
    rw [Nat.sub_add_cancel hk'] at hlen
    have hne' : s' ≠ 0 := Nat.ne_of_gt (Nat.lt_of_lt_of_le (Nat.pow_pos (by decide)) hlow)
    exact (hshort.least s' _ hne' hs').trans_eq hlen

def NegativeZero (x : BitVec 64) : Prop := units x = 0 ∧ negative x = true

theorem negativeZero_pack : NegativeZero (pack true 0 0) := by
  have hexp : exponent (pack true 0 0) = 0 := exponent_pack (by decide) (by decide)
  have hfrac : fraction (pack true 0 0) = 0 := fraction_pack (by decide) (by decide)
  refine ⟨?_, negative_pack (by decide) (by decide)⟩
  rw [units, significand, if_pos hexp, hfrac, Nat.zero_mul]

/-- **Every text but that of a negative zero is allowed.** -/
theorem numberToString_sound (h : ¬ NegativeZero x) : NumberToString x (numberToString host x) := by
  by_cases hnan : IsNaN x
  · rw [numberToString, if_pos hnan]
    exact .nan hnan
  by_cases hzero : units x = 0
  · have hpos : ¬ negative x = true := fun hneg => h ⟨hzero, hneg⟩
    have hinf : ∀ neg, x ≠ infinity neg := by
      rintro neg rfl
      exact (infinity_spec neg).2.2.2 hzero
    unfold numberToString
    rw [if_neg hnan, if_neg (hinf false), if_neg (hinf true), if_pos hzero, if_neg hpos]
    exact .zero (isFinite_of_units_eq_zero hzero) hzero
  by_cases hfin : IsFinite x
  · rw [numberToString_finite host hfin hzero, signText]
    by_cases hneg : negative x = true
    · obtain ⟨hunits, hnegative, hfinite⟩ := units_neg x
      rw [if_pos hneg]
      refine .negative hnan hzero hneg ?_
      have hdigits := numberDigits host (hfinite.mpr hfin) (by rwa [hunits])
        (by rw [hnegative, hneg]; rfl)
      unfold ShortestDigits.point at hdigits ⊢
      rw [hunits] at hdigits
      exact .finite (hfinite.mpr hfin) (by rwa [hunits]) (by rw [hnegative, hneg]; rfl) hdigits
    · rw [if_neg hneg, List.nil_append]
      have hpos : negative x = false := Bool.eq_false_iff.mpr hneg
      exact .finite hfin hzero hpos (numberDigits host hfin hzero hpos)
  · rcases not_isFinite_iff.mp hfin with hnan' | hinf
    · exact absurd hnan' hnan
    · cases hneg : negative x with
      | false =>
        rw [hneg] at hinf
        rw [numberToString, if_neg hnan, if_pos hinf, hinf]
        exact .infinity
      | true =>
        have hinf' : x = infinity true := by rw [hinf, hneg]
        rw [numberToString, if_neg hnan, if_neg (by rw [hinf']; exact infinity_true_ne), if_pos hinf']
        have hneg' : neg x = infinity false := by
          rw [hinf']
          exact neg_infinity true
        refine .negative (t := "Infinity".toList) hnan hzero hneg ?_
        rw [hneg']
        exact .infinity

theorem numberToString_negativeZero (h : NegativeZero x) :
    numberToString host x = "-0".toList ∧ ¬ NumberToString x "-0".toList := by
  have hfin := isFinite_of_units_eq_zero h.1
  have hinf : ∀ neg, x ≠ infinity neg := by
    rintro neg rfl
    exact (infinity_spec neg).2.2.2 h.1
  constructor
  · unfold numberToString
    rw [if_neg (not_isNaN_of_isFinite hfin), if_neg (hinf false), if_neg (hinf true), if_pos h.1,
      if_pos h.2]
  · generalize ht : "-0".toList = t
    intro htext
    cases htext with
    | nan hnan => exact not_isNaN_of_isFinite hfin hnan
    | zero => exact absurd ht (by decide)
    | negative _ hne => exact hne h.1
    | infinity => exact hinf false rfl
    | finite _ hne => exact hne h.1

end Texts

end V12.Interp
