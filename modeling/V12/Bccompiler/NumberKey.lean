/-
V12.Bccompiler.NumberKey — `number_to_key` of `v12-bccompiler/src/expr.rs`, and
the three texts of a number.

The compiler prints a whole number as an integer and leaves any other to the
host, which never writes an exponent. `textsAgree_iff`: the three texts are one,
and allowed, exactly on the numbers that ECMAScript writes without an exponent,
negative zero and the infinities apart.
-/
import V12.Engine.Number

namespace V12.Bccompiler

open Lib.Binary64 Lib.Decimal
open V12.Interp (ShortestDigits NumberToString NegativeZero signText zeros layout)

/-- `{}` of an integer. -/
def intText (n : Int) : List Char :=
  if n < 0 then '-' :: Nat.toDigits 10 n.natAbs else Nat.toDigits 10 n.natAbs

def numberToKey (host : ShortestDigits) (v : BitVec 64) : List Char :=
  if IsFinite v ∧ IsWhole v ∧ units v < 10 ^ 15 * unitsPerOne then intText (trunc v)
  else host.display v

/-- The three conversions of a number give one text, and ECMAScript allows it. -/
def TextsAgree (host : ShortestDigits) (x : BitVec 64) : Prop :=
  ∃ t, NumberToString x t ∧ Interp.numberToString host x = t ∧
    Engine.numberToString host x = t ∧ numberToKey host x = t

def InPlainRange (u : Nat) : Prop := rounded 1 (-6) ≤ u ∧ u < 10 ^ 21 * unitsPerOne

/-- The numbers that are written without an exponent: no negative zero, no infinity, and not too
small or too large. -/
def Plain (x : BitVec 64) : Prop :=
  IsNaN x ∨ IsFinite x ∧ ¬ NegativeZero x ∧ (units x ≠ 0 → InPlainRange (units x))

section Texts

variable (host : ShortestDigits) {x : BitVec 64} {ds : List Char} {n : Int} {k s : Nat}

theorem inPlainRange_iff (hne : units x ≠ 0) :
    InPlainRange (units x) ↔ -5 ≤ host.point x ∧ host.point x ≤ 21 := by
  have hshort := host.shortest hne
  have hmicro := point_le_iff hshort apart_micro
  have hlarge := point_le_iff hshort (apart_natCast (j := 21) (Nat.le_refl _))
  rw [rounded_pow (Nat.le_refl _)] at hlarge
  change host.point x ≤ -6 ↔ _ at hmicro
  change host.point x ≤ 21 ↔ _ at hlarge
  rw [InPlainRange, hlarge, ← Nat.not_lt, ← hmicro]
  exact and_congr_left fun _ => by omega

theorem layout_plain (hn : -5 ≤ n ∧ n ≤ 21) (hk : len s = k) :
    layout n k s = ShortestDigits.positional (Nat.toDigits 10 s) n := by
  have hlen : (Nat.toDigits 10 s).length = k := hk
  have hpos := len_pos s
  unfold layout ShortestDigits.positional
  rw [if_pos hn, hlen]
  by_cases hle : n ≤ 0
  · have h1 : ¬ (k : Int) ≤ n := by omega
    have h2 : ¬ 0 < n := by omega
    rw [if_pos hle, if_neg h1, if_neg h2]
  · rw [if_neg hle]
    by_cases hkn : (k : Int) ≤ n
    · have h1 : ¬ n < (k : Int) := by omega
      rw [if_pos hkn, if_neg h1]
    · have h1 : n < (k : Int) := by omega
      have h2 : 0 < n := by omega
      rw [if_neg hkn, if_pos h1, if_pos h2]

theorem e_mem_layout (hn : ¬ (-5 ≤ n ∧ n ≤ 21)) (k s : Nat) : 'e' ∈ layout n k s := by
  unfold layout
  rw [if_neg hn]
  dsimp only
  split
  · simp
  · simp

theorem e_not_mem_positional (h : ∀ c ∈ ds, c.isDigit = true) (n : Int) :
    'e' ∉ ShortestDigits.positional ds n := by
  have hds : 'e' ∉ ds := fun he => absurd (h 'e' he) (by decide)
  have hzeros : ∀ m, 'e' ∉ zeros m := fun m he => absurd (List.eq_of_mem_replicate he) (by decide)
  unfold ShortestDigits.positional
  split
  · simp [hds, hzeros]
  · split
    · have htake : 'e' ∉ ds.take n.toNat := fun he => hds (List.mem_of_mem_take he)
      have hdrop : 'e' ∉ ds.drop n.toNat := fun he => hds (List.mem_of_mem_drop he)
      simp [htake, hdrop]
    · simp [hds, hzeros]

theorem e_not_mem_display (hfin : IsFinite x) (hne : units x ≠ 0) : 'e' ∉ host.display x := by
  have hpositional := e_not_mem_positional
    (Interp.isDigit_toDigits (host.significand (units x))) (host.point x)
  have hsign : 'e' ∉ signText x := by
    unfold signText
    split <;> simp
  rw [ShortestDigits.display, if_neg (not_isNaN_of_isFinite hfin), if_neg (not_not_intro hfin),
    if_neg hne, List.mem_append]
  exact not_or.mpr ⟨hsign, hpositional⟩

theorem intText_trunc {m : Nat} (hunits : units x = m * unitsPerOne) (hm : m ≠ 0)
    (hlt : m < 2 ^ 53) : intText (trunc x) =
      signText x ++ ShortestDigits.positional (host.digits x) (host.point x) := by
  have hne : units x ≠ 0 := by
    rw [hunits]
    exact Nat.mul_ne_zero hm (Nat.ne_of_gt unitsPerOne_pos)
  have hshort := host.shortest hne
  have hwhole := hshort
  rw [hunits] at hwhole
  obtain ⟨he, hvalue⟩ := hwhole.whole hm hlt
  rw [← hunits] at he hvalue
  have hlen : (host.digits x).length = len (host.significand (units x)) := rfl
  have hpoint : host.point x - (host.digits x).length = host.exponent (units x) := by
    rw [hlen, ShortestDigits.point]
    omega
  have htext : ShortestDigits.positional (host.digits x) (host.point x) = Nat.toDigits 10 m := by
    have hpos := len_pos (host.significand (units x))
    unfold ShortestDigits.positional
    rw [if_neg (by unfold ShortestDigits.point; omega), if_neg (by omega), hpoint, hvalue,
      toDigits_mul_pow hshort.pos]
    rfl
  have hneg : -(m : Int) < 0 := by omega
  have hpos : ¬ (m : Int) < 0 := by omega
  rw [htext, trunc_of_units hunits, intText, signText]
  cases negative x with
  | false => simp only [Bool.false_eq_true, if_false, if_neg hpos, Int.natAbs_natCast,
      List.nil_append]
  | true => simp only [if_true, if_pos hneg, Int.natAbs_neg, Int.natAbs_natCast, List.cons_append,
      List.nil_append]

theorem numberToKey_finite (hfin : IsFinite x) (hne : units x ≠ 0) :
    numberToKey host x = signText x ++
      ShortestDigits.positional (host.digits x) (host.point x) := by
  unfold numberToKey
  split
  case isTrue h =>
    obtain ⟨m, hm⟩ := Nat.dvd_of_mod_eq_zero h.2.1
    rw [Nat.mul_comm] at hm
    have hlt := h.2.2
    rw [hm] at hlt
    have hlt' := Nat.lt_of_mul_lt_mul_right hlt
    have hm0 : m ≠ 0 := by
      rintro rfl
      rw [Nat.zero_mul] at hm
      exact hne hm
    exact intText_trunc host hm hm0 (Nat.lt_trans hlt' (by norm_num))
  case isFalse =>
    rw [ShortestDigits.display, if_neg (not_isNaN_of_isFinite hfin), if_neg (not_not_intro hfin),
      if_neg hne]

theorem textsAgree_of_plain (h : Plain x) : TextsAgree host x := by
  have hzero : ¬ NegativeZero x := by
    rcases h with hnan | ⟨-, hzero, -⟩
    · rintro ⟨hunits, -⟩
      exact not_isNaN_of_isFinite (Interp.isFinite_of_units_eq_zero hunits) hnan
    · exact hzero
  refine ⟨_, Interp.numberToString_sound host hzero, rfl, Engine.numberToString_eq host hzero, ?_⟩
  rcases h with hnan | ⟨hfin, -, hrange⟩
  · have hinf : ¬ IsFinite x := fun hfin => not_isNaN_of_isFinite hfin hnan
    rw [numberToKey, if_neg (fun h => hinf h.1), ShortestDigits.display, Interp.numberToString,
      if_pos hnan, if_pos hnan]
  by_cases hne : units x = 0
  · have hpos : negative x = false := Bool.eq_false_iff.mpr fun hneg => hzero ⟨hne, hneg⟩
    have hinf : ∀ neg, x ≠ infinity neg := by
      rintro neg rfl
      exact (infinity_spec neg).2.2.2 hne
    have hwhole : IsWhole x := by rw [IsWhole, hne, Nat.zero_mod]
    have hsmall : units x < 10 ^ 15 * unitsPerOne := by
      rw [hne]
      exact Nat.mul_pos (by norm_num) unitsPerOne_pos
    have htrunc : trunc x = 0 := by
      rw [trunc, hpos, hne, Nat.zero_div]
      rfl
    rw [numberToKey, if_pos ⟨hfin, hwhole, hsmall⟩, htrunc, Interp.numberToString,
      if_neg (not_isNaN_of_isFinite hfin), if_neg (hinf false), if_neg (hinf true), if_pos hne,
      if_neg (by rw [hpos]; decide)]
    rfl
  · rw [numberToKey_finite host hfin hne, Interp.numberToString_finite host hfin hne,
      layout_plain ((inPlainRange_iff host hne).mp (hrange hne)) rfl]
    rfl

end Texts

/-- **The three conversions agree exactly on the plain numbers.** -/
theorem textsAgree_iff (host : ShortestDigits) (x : BitVec 64) :
    TextsAgree host x ↔ Plain x := by
  refine ⟨?_, textsAgree_of_plain host⟩
  rintro ⟨t, hallowed, rfl, -, hkey⟩
  by_cases hnan : IsNaN x
  · exact .inl hnan
  have hzero : ¬ NegativeZero x := by
    intro hzero
    obtain ⟨htext, hnot⟩ := Interp.numberToString_negativeZero host hzero
    rw [htext] at hallowed
    exact hnot hallowed
  by_cases hfin : IsFinite x
  · refine .inr ⟨hfin, hzero, fun hne => ?_⟩
    rw [inPlainRange_iff host hne]
    by_contra hout
    -- one text has an exponent, the other has none
    have hmem := e_mem_layout hout (len (host.significand (units x))) (host.significand (units x))
    have hnot := e_not_mem_display host hfin hne
    have hdisplay : host.display x = numberToKey host x := by
      rw [numberToKey_finite host hfin hne, ShortestDigits.display, if_neg hnan,
        if_neg (not_not_intro hfin), if_neg hne]
    rw [hdisplay, hkey, Interp.numberToString_finite host hfin hne] at hnot
    exact hnot (List.mem_append_right _ hmem)
  · exfalso
    have hinf := (not_isFinite_iff.mp hfin).resolve_left hnan
    have hkey' : signText x ++ "inf".toList = Interp.numberToString host x := by
      rw [← hkey, numberToKey, if_neg (fun h => hfin h.1), ShortestDigits.display, if_neg hnan,
        if_pos hfin]
    rw [Interp.numberToString, if_neg hnan, signText] at hkey'
    cases hneg : negative x with
    | false =>
      rw [hneg] at hinf hkey'
      rw [if_pos hinf, if_neg (by decide)] at hkey'
      exact absurd hkey' (by decide)
    | true =>
      rw [hneg] at hinf hkey'
      have hne : x ≠ infinity false := by
        rw [hinf]
        exact infinity_true_ne
      rw [if_neg hne, if_pos hinf, if_pos rfl] at hkey'
      exact absurd hkey' (by decide)

/-- `-0` is printed with its sign in one place. -/
theorem not_textsAgree : ¬ ∀ (host : ShortestDigits) (x : BitVec 64), TextsAgree host x := by
  intro h
  obtain ⟨host⟩ := Interp.nonempty_shortestDigits
  obtain ⟨t, hallowed, htext, -⟩ := h host (pack true 0 0)
  obtain ⟨hzero, hnot⟩ := Interp.numberToString_negativeZero host Interp.negativeZero_pack
  rw [← htext, hzero] at hallowed
  exact hnot hallowed

end V12.Bccompiler
