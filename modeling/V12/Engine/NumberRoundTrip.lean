/-
V12.Engine.NumberRoundTrip — the text of a number is read as the number.

`number_to_string` lays the shortest digits out in one of five ways. Each is a
decimal literal of the grammar, with the digits and the exponent it was made
of, so `string_to_number` rounds the decimal that was chosen for the number.
-/
import V12.Engine.DateRoundTrip
import V12.Engine.Number

namespace V12.NumberRoundTrip

open Lib.Binary64 Lib.Decimal V12.Interp

variable {n : Int} {s : Nat} {t : List Char} {m : Magnitude} {x : BitVec 64}

/-! ## §1 The layouts are literals -/

theorem digits_zeros (j s : Nat) : Digits 10 (List.replicate j '0' ++ Nat.toDigits 10 s) ∧
    digitsValue 10 (List.replicate j '0' ++ Nat.toDigits 10 s) = s := by
  obtain ⟨hall, hvalue⟩ := DateTime.padded_digits j s
  refine ⟨⟨?_, fun c hc => DateTime.isDigit_ten (hall c hc)⟩, hvalue⟩
  exact List.append_ne_nil_of_right_ne_nil _ Nat.toDigits_ne_nil

theorem digits_toDigits (s : Nat) : Digits 10 (Nat.toDigits 10 s) ∧
    digitsValue 10 (Nat.toDigits 10 s) = s := digits_zeros 0 s

theorem exponentPart (hn : n ≠ 0) :
    ExponentPart ('e' :: (if n < 0 then '-' else '+') :: Nat.toDigits 10 (n - 1).natAbs) (n - 1) := by
  obtain ⟨hdigits, hvalue⟩ := digits_toDigits (n - 1).natAbs
  by_cases hneg : n < 0
  · have h := ExponentPart.minus (.inl rfl) hdigits
    rw [hvalue, show -((n - 1).natAbs : Int) = n - 1 by omega] at h
    rwa [if_pos hneg]
  · have h := ExponentPart.plus (.inl rfl) hdigits
    rw [hvalue, show ((n - 1).natAbs : Int) = n - 1 by omega] at h
    rwa [if_neg hneg]

/-- The text is a literal of the decimal `s · 10^e`, up to zeros moved to the exponent. -/
def Writes (t : List Char) (s : Nat) (e : Int) : Prop :=
  ∃ m e', StrUnsignedDecimalLiteral t (.decimal m e') ∧ ∀ neg, scaled neg m e' = scaled neg s e

theorem Writes.of_eq {m : Nat} {e e' : Int} (h : StrUnsignedDecimalLiteral t (.decimal m e'))
    (hm : m = s) (he : e' = e) : Writes t s e := ⟨m, e', h, fun _ => by rw [hm, he]⟩

theorem writes_whole (hs : s ≠ 0) {j : Nat} (hj : (j : Int) = n) :
    Writes (Nat.toDigits 10 s ++ List.replicate j '0') s n := by
  obtain ⟨hdigits, hvalue⟩ := digits_toDigits (s * 10 ^ j)
  have h := StrUnsignedDecimalLiteral.whole hdigits .absent
  rw [List.append_nil, hvalue, toDigits_mul_pow hs] at h
  refine ⟨_, _, h, fun neg => ?_⟩
  unfold scaled
  rw [if_pos (le_refl 0), if_pos (by omega), ← hj]
  simp

theorem writes_fraction (j : Nat) :
    Writes ('0' :: '.' :: List.replicate j '0' ++ Nat.toDigits 10 s) s (-(j + len s : Nat)) := by
  obtain ⟨hdigits, -⟩ := digits_zeros j s
  have h := StrUnsignedDecimalLiteral.point (digits_toDigits 0).1 (.inr hdigits) .absent
  rw [List.append_nil, show Nat.toDigits 10 0 = ['0'] from rfl] at h
  refine .of_eq h (digits_zeros (j + 1) s).2 ?_
  rw [List.length_append, List.length_replicate]
  exact Int.zero_sub _

theorem writes_point {i : Nat} {exp : List Char} {e : Int} (hi : 0 < i) (hlen : i < len s)
    (hexp : ExponentPart exp e) :
    Writes ((Nat.toDigits 10 s).take i ++ '.' :: (Nat.toDigits 10 s).drop i ++ exp) s
      (e - (len s - i : Nat)) := by
  obtain ⟨⟨-, hall⟩, hvalue⟩ := digits_toDigits s
  have hlength : (Nat.toDigits 10 s).length = len s := rfl
  have hwhole : Digits 10 ((Nat.toDigits 10 s).take i) := by
    refine ⟨fun hnil => ?_, fun c hc => hall c (List.mem_of_mem_take hc)⟩
    have := congrArg List.length hnil
    rw [List.length_take, List.length_nil] at this
    omega
  have hfrac : Digits 10 ((Nat.toDigits 10 s).drop i) := by
    refine ⟨fun hnil => ?_, fun c hc => hall c (List.mem_of_mem_drop hc)⟩
    have := congrArg List.length hnil
    rw [List.length_drop, List.length_nil] at this
    omega
  refine .of_eq (.point hwhole (.inr hfrac) hexp) ?_ ?_
  · rw [List.take_append_drop, hvalue]
  · rw [List.length_drop, hlength]

/-- **A layout is a literal** of the decimal that is laid out. -/
theorem writes_layout (hs : s ≠ 0) (n : Int) : Writes (layout n (len s) s) s (n - len s) := by
  have hpos := len_pos s
  unfold layout
  by_cases hrange : -5 ≤ n ∧ n ≤ 21
  · rw [if_pos hrange]
    by_cases hwhole : (len s : Int) ≤ n
    · rw [if_pos hwhole]
      exact writes_whole hs (by omega)
    · rw [if_neg hwhole]
      by_cases hpoint : 0 < n
      · rw [if_pos hpoint]
        have h := writes_point (s := s) (i := n.toNat) (by omega) (by omega) .absent
        rw [List.append_nil] at h
        convert h using 1
        omega
      · rw [if_neg hpoint]
        have hexp : n - len s = -((-n).toNat + len s : Nat) := by omega
        rw [hexp]
        exact writes_fraction _
  · rw [if_neg hrange]
    have hexp := exponentPart (show n ≠ 0 by omega)
    by_cases hone : len s = 1
    · obtain ⟨hdigits, hvalue⟩ := digits_toDigits s
      rw [if_pos hone]
      exact .of_eq (.whole hdigits hexp) hvalue (by omega)
    · rw [if_neg hone]
      have h := writes_point (s := s) (i := 1) (by omega) (by omega) hexp
      convert h using 1
      omega

/-! ## §2 Reading -/

def signOf (neg : Bool) : List Char := if neg then ['-'] else []

theorem stringToNumber_literal (h : StrUnsignedDecimalLiteral t m) (neg : Bool) :
    stringToNumber ((signOf neg ++ t).map unit) = m.number neg := by
  have hliteral : StrNumericLiteral (signOf neg ++ t) neg m := by
    cases neg with
    | false => exact .unsigned h
    | true => exact .minus h
  have hsolid := hliteral.solid
  have hascii := ascii_of_solid hsolid
  obtain ⟨hne, hplus, hminus⟩ := hliteral.ne_sign
  have htrim : trim ((signOf neg ++ t).map unit) = (signOf neg ++ t).map unit :=
    trim_of_surrounded hsolid ⟨[], [], by simp, by simp, by simp⟩
  cases reading ((signOf neg ++ t).map unit) with
  | blank hnil =>
    rw [htrim, List.map_eq_nil_iff] at hnil
    exact absurd hnil hne
  | word w hw hmap hwascii hsign hv =>
    rw [htrim] at hmap
    obtain rfl := map_unit_injective hascii hwascii hmap
    cases neg with
    | false => rw [hv]; exact readWord_unsigned false h
    | true => exact absurd rfl (hsign '-' t rfl).2
  | signed sign negative w hsign hmap hwascii hv =>
    rw [htrim] at hmap
    have hfull := map_unit_injective hascii hwascii hmap
    rw [hfull, signed_literal_iff hsign] at hliteral
    rw [hv, hliteral.1]
    exact readWord_unsigned negative hliteral.2
  | other hnone => exact absurd (hnone _ hascii htrim) (not_or.mpr ⟨hplus, hminus⟩)

theorem infinity_literal : StrUnsignedDecimalLiteral "Infinity".toList .infinite := .infinity

theorem head_layout (n : Int) (k s : Nat) : ∃ d t, layout n k s = d :: t ∧ isDigit 10 d = true := by
  obtain ⟨⟨hne, hall⟩, -⟩ := digits_toDigits s
  obtain ⟨d, ds, hds⟩ := List.exists_cons_of_ne_nil hne
  have hd : isDigit 10 d = true := hall d (hds ▸ List.mem_cons_self)
  unfold layout
  rw [hds]
  dsimp only
  split
  case isTrue =>
    split
    case isTrue => exact ⟨d, _, rfl, hd⟩
    case isFalse =>
      split
      case isTrue hpos =>
        obtain ⟨i, hi⟩ : ∃ i, n.toNat = i + 1 := ⟨n.toNat - 1, by omega⟩
        rw [hi]
        exact ⟨d, _, rfl, hd⟩
      case isFalse => exact ⟨'0', _, rfl, by decide⟩
  case isFalse =>
    split
    case isTrue => exact ⟨d, _, rfl, hd⟩
    case isFalse => exact ⟨d, _, rfl, hd⟩

/-- **The text of a finite number** is a sign and a literal whose decimal is rounded to it. -/
theorem exists_literal (host : ShortestDigits) (hfin : IsFinite x) :
    ∃ d t m e, numberToString host x = signOf (negative x) ++ d :: t ∧ isDigit 10 d = true ∧
      StrUnsignedDecimalLiteral (d :: t) (.decimal m e) ∧ scaled (negative x) m e = x := by
  by_cases hzero : units x = 0
  · refine ⟨'0', [], _, _, ?_, by decide, .whole (digits_toDigits 0).1 .absent, ?_⟩
    · have hinf : ∀ neg, x ≠ infinity neg := by
        rintro neg rfl
        exact (infinity_spec neg).2.1 hfin
      unfold numberToString
      rw [if_neg (not_isNaN_of_isFinite hfin), if_neg (hinf false), if_neg (hinf true), if_pos hzero]
      cases negative x <;> rfl
    · rw [(digits_toDigits 0).2, scaled_eq_iff hfin]
      exact rounded_eq (isFloat_units x) (by rw [hzero, Nat.cast_zero, zero_mul, zero_mul])
  · obtain ⟨m, e, hliteral, hscaled⟩ := writes_layout (host.shortest hzero).pos (host.point x)
    obtain ⟨d, t, hlayout, hd⟩ := head_layout (host.point x) (len (host.significand (units x)))
      (host.significand (units x))
    rw [hlayout] at hliteral
    refine ⟨d, t, m, e, by rw [numberToString_finite host hfin hzero, hlayout]; rfl, hd, hliteral, ?_⟩
    rw [hscaled, scaled_eq_iff hfin, ShortestDigits.point, add_sub_cancel_right]
    exact (host.shortest hzero).rounds

/-- The text is read as the number; that of a NaN is read as some NaN. -/
def ReadBack (x : BitVec 64) (t : List Char) : Prop :=
  stringToNumber (t.map unit) = x ∨ (IsNaN x ∧ IsNaN (stringToNumber (t.map unit)))

theorem readBack_numberToString (host : ShortestDigits) (x : BitVec 64) :
    ReadBack x (numberToString host x) := by
  by_cases hnan : IsNaN x
  · have htext : numberToString host x = "NaN".toList := if_pos hnan
    exact .inr ⟨hnan, by rw [htext]; decide⟩
  refine .inl ?_
  by_cases hfin : IsFinite x
  · obtain ⟨d, t, m, e, htext, -, hliteral, hvalue⟩ := exists_literal host hfin
    rw [htext, stringToNumber_literal hliteral]
    exact hvalue
  · obtain hnan' | hinf := not_isFinite_iff.mp hfin
    · exact absurd hnan' hnan
    · have htext : numberToString host x = signOf (negative x) ++ "Infinity".toList := by
        unfold numberToString
        rw [if_neg hnan]
        cases hneg : negative x with
        | false =>
          rw [hneg] at hinf
          rw [if_pos hinf]
          rfl
        | true =>
          rw [hneg] at hinf
          rw [if_neg (hinf ▸ infinity_true_ne), if_pos hinf]
          rfl
      rw [htext, stringToNumber_literal infinity_literal]
      exact hinf.symm

/-- **A number is read back from its texts**, whichever shortest digits the host chooses: from the
interpreter's with the sign of a zero, from the engine's but for a negative zero. -/
theorem number_of_text (host : ShortestDigits) (x : BitVec 64) :
    ReadBack x (numberToString host x) ∧
      (NegativeZero x ∨ ReadBack x (Engine.numberToString host x)) := by
  have hread := readBack_numberToString host x
  refine ⟨hread, ?_⟩
  by_cases hzero : NegativeZero x
  · exact .inl hzero
  · rw [Engine.numberToString_eq host hzero]
    exact .inr hread

end V12.NumberRoundTrip
