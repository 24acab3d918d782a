/-
V12.Engine.NumberBoxing — `smi_or_f64` and `js_number` of
`v12-engine/src/builtins/helpers.rs`, and the length that `set_array_len` writes.

`smi_or_f64` takes an integer to 32 bits before it asks whether it is a small
one, so an integer can come back as another that is one. `js_number` asks the
number itself, and has no small integer for a negative zero.
-/
import V12.Interp.ArrayLengthTheorems
import V12.Interp.Equality

namespace V12.Engine.Boxing

open V12.Heap V12.Heap.JsValue V12.Interp Lib.Binary64 Lib.Binary64.Double

/-! ## §1 The code -/

/-- `smi_or_f64`. -/
def smiOrF64 (n : Int) : JsValue := (fromI32Smi (Int.bmod n (2 ^ 32))).getD (fromF64 (f64OfInt n))

/-- `js_number`; in the range it tests, the cast to `i32` is `trunc`. -/
def jsNumber (x : BitVec 64) : JsValue :=
  if IsFinite x ∧ IsWhole x ∧ (SMI_MIN : ℚ) ≤ value x ∧ value x ≤ (SMI_MAX : ℚ) then
    (fromI32Smi (trunc x)).getD (fromF64 x)
  else fromF64 x

/-- `u32::MAX`. -/
def u32Max : Int := 4294967295

/-- The value that `set_array_len` writes for a length. -/
def lengthValue (len : Double) : JsValue :=
  smiOrF64 (if len = .nan ∨ (ofInt u32Max).lt len = true then ofInt u32Max else len).toI64

/-! ## §2 What is read back -/

def ReadsInt (v : JsValue) (n : Int) : Prop :=
  ∃ y, numOf v = some y ∧ IsFinite y ∧ value y = n

/-- The value is read as the double: the sign of a zero with it, of a NaN no more than that. -/
def ReadsDouble (v : JsValue) (x : BitVec 64) : Prop :=
  ∃ y, numOf v = some y ∧ (y = x ∨ IsNaN y ∧ IsNaN x)

/-- An integer, a double, and a length or an index are read back from their boxes. -/
structure BoxingHeld (n : Int) (x : BitVec 64) (len : Nat) : Prop where
  integer : ReadsInt (smiOrF64 n) n
  double : ReadsDouble (jsNumber x) x
  length : ReadsInt (lengthValue (ofInt len)) len

/-- The 32 bits of the integer are a small integer only if it is one. -/
def Unwrapped (n : Int) : Prop := InSmi n ∨ ¬ InSmi (Int.bmod n (2 ^ 32))

def negativeZero : BitVec 64 := 0x8000000000000000#64

/-! ## §3 Integers -/

variable {n : Int} {x : BitVec 64}

theorem value_f64OfInt_le (h : n.natAbs ≤ 2 ^ 53) :
    IsFinite (f64OfInt n) ∧ value (f64OfInt n) = n := by
  by_cases hlt : n.natAbs < 2 ^ 53
  · exact ⟨(f64OfInt_exact hlt).1, value_f64OfInt hlt⟩
  · -- a power of two, one past the whole numbers with a hidden bit of their own
    have hshift (k : Nat) : 2 ^ 52 * 2 ^ (k + 1) = 2 ^ 53 * 2 ^ k := by
      rw [Nat.pow_succ]
      omega
    have hunits (z : BitVec 64) (hs : significand z = 2 ^ 52)
        (he : exponent z - 1 = 1074 + 1) : units z = 2 ^ 53 * unitsPerOne := by
      unfold units unitsPerOne
      rw [hs, he, hshift]
    rcases (by omega : n = 2 ^ 53 ∨ n = -2 ^ 53) with rfl | rfl
    · refine ⟨by decide, ?_⟩
      rw [value_of_units (hunits _ (by decide) (by decide)), if_neg (by decide)]
      norm_num
    · refine ⟨by decide, ?_⟩
      rw [value_of_units (hunits _ (by decide) (by decide)), if_pos (by decide)]
      norm_num

theorem isRaw_of_isFinite (h : IsFinite x) : IsRaw x := by
  by_contra hraw
  exact h (isNaN_of_not_isRaw hraw).1

theorem bmod_of_inSmi (h : InSmi n) : Int.bmod n (2 ^ 32) = n := by
  obtain ⟨hmin, hmax⟩ := h
  simp only [SMI_MIN, SMI_MAX] at hmin hmax
  exact Int.bmod_eq_of_le (by omega) (by omega)

theorem InSmi.natAbs_lt (h : InSmi n) : n.natAbs < 2 ^ 53 := by
  obtain ⟨hmin, hmax⟩ := h
  simp only [SMI_MIN, SMI_MAX] at hmin hmax
  omega

theorem readsInt_smi {m : Int} (hm : InSmi m) : ReadsInt (.smi m) n ↔ m = n := by
  have hm := InSmi.natAbs_lt hm
  constructor
  · rintro ⟨y, hy, -, hvalue⟩
    obtain rfl : f64OfInt m = y := Option.some.inj hy
    rw [value_f64OfInt hm] at hvalue
    exact_mod_cast hvalue
  · rintro rfl
    exact ⟨_, rfl, (f64OfInt_exact hm).1, value_f64OfInt hm⟩

theorem readsInt_smiOrF64 (h : n.natAbs ≤ 2 ^ 53) : ReadsInt (smiOrF64 n) n ↔ Unwrapped n := by
  by_cases hwrap : InSmi (Int.bmod n (2 ^ 32))
  · have hsmi : smiOrF64 n = .smi (Int.bmod n (2 ^ 32)) := by
      have hsome : fromI32Smi (Int.bmod n (2 ^ 32)) = some (.smi _) := if_pos hwrap
      rw [smiOrF64, hsome, Option.getD_some]
    rw [hsmi, readsInt_smi hwrap]
    constructor
    · intro heq
      exact .inl (heq ▸ hwrap)
    · rintro (hin | hout)
      · exact bmod_of_inSmi hin
      · exact absurd hwrap hout
  · obtain ⟨hfinite, hvalue⟩ := value_f64OfInt_le h
    have hdouble : smiOrF64 n = .double (f64OfInt n) := by
      have hnone : fromI32Smi (Int.bmod n (2 ^ 32)) = none := if_neg hwrap
      rw [smiOrF64, hnone, Option.getD_none, fromF64_of_isRaw (isRaw_of_isFinite hfinite)]
    rw [hdouble]
    exact iff_of_true ⟨_, rfl, hfinite, hvalue⟩ (.inr hwrap)

theorem lengthValue_ofInt {len : Nat} (h : (len : Int) ≤ u32Max) :
    lengthValue (ofInt len) = smiOrF64 len := by
  have hnot : ¬ (ofInt len = .nan ∨ (ofInt u32Max).lt (ofInt len) = true) := by
    rw [lt_ofInt, decide_eq_true_eq]
    rintro (hnan | hlt)
    · cases hnan
    · omega
  unfold u32Max at h
  rw [lengthValue, if_neg hnot, toI64_ofInt (by omega)]

theorem unwrapped_length {len : Nat} (h : (len : Int) ≤ u32Max) :
    Unwrapped len ↔ len < 3221225472 := by
  unfold u32Max at h
  have hmod : Int.bmod len (2 ^ 32) = if len < 2147483648 then (len : Int) else len - 4294967296 := by
    rw [Int.bmod_def]
    split <;> split <;> omega
  unfold Unwrapped InSmi SMI_MIN SMI_MAX
  rw [hmod]
  split <;> omega

/-! ## §4 Doubles -/

theorem readsDouble_fromF64 (x : BitVec 64) : ReadsDouble (fromF64 x) x := by
  by_cases hraw : IsRaw x
  · rw [fromF64_of_isRaw hraw]
    exact ⟨x, rfl, .inl rfl⟩
  · have hbox : fromF64 x = .double QUIET_NAN_BITS := if_pos (not_not.mp hraw)
    rw [hbox]
    exact ⟨_, rfl, .inr ⟨by decide, isNaN_of_not_isRaw hraw⟩⟩

theorem units_negativeZero : units negativeZero = 0 * unitsPerOne := by
  rw [units, show significand negativeZero = 0 by decide, Nat.zero_mul, Nat.zero_mul]

theorem f64OfInt_trunc (hfinite : IsFinite x) (hwhole : IsWhole x) (h : InSmi (trunc x)) :
    f64OfInt (trunc x) = x ↔ x ≠ negativeZero := by
  obtain ⟨m, hm⟩ := Nat.dvd_of_mod_eq_zero hwhole
  rw [Nat.mul_comm] at hm
  have htrunc := trunc_of_units hm
  obtain ⟨hfin', hneg', hunits'⟩ := f64OfInt_exact (InSmi.natAbs_lt h)
  have habs : (trunc x).natAbs = m := by
    rw [htrunc]
    split <;> omega
  constructor
  · rintro heq rfl
    rw [trunc_of_units units_negativeZero] at heq
    exact absurd heq (by decide)
  · intro hne
    have hsign : negative x = decide (trunc x < 0) := by
      rw [htrunc]
      cases hneg : negative x with
      | false => simp
      | true =>
        refine (decide_eq_true ?_).symm
        rw [if_pos rfl]
        rcases Nat.eq_zero_or_pos m with rfl | hpos
        · refine absurd ?_ hne
          rw [← ofUnits_units hfinite, hneg, hm, Nat.zero_mul]
          decide
        · omega
    rw [← ofUnits_units hfin', hneg', hunits', habs, ← hsign, ← hm, ofUnits_units hfinite]

theorem readsDouble_jsNumber (x : BitVec 64) :
    ReadsDouble (jsNumber x) x ↔ x ≠ negativeZero := by
  unfold jsNumber
  split
  case isTrue h =>
    obtain ⟨hfinite, hwhole, hmin, hmax⟩ := h
    have hsmi : InSmi (trunc x) := by
      have hvalue : value x = (trunc x : ℚ) := by
        obtain ⟨m, hm⟩ := Nat.dvd_of_mod_eq_zero hwhole
        rw [Nat.mul_comm] at hm
        rw [value_of_units hm, trunc_of_units hm]
        split <;> push_cast <;> rfl
      rw [hvalue] at hmin hmax
      exact ⟨by exact_mod_cast hmin, by exact_mod_cast hmax⟩
    have hsome : fromI32Smi (Lib.Binary64.trunc x) = some (.smi _) := if_pos hsmi
    rw [hsome, Option.getD_some, ← f64OfInt_trunc hfinite hwhole hsmi]
    constructor
    · rintro ⟨y, hy, heq | ⟨-, hnan⟩⟩
      · exact (Option.some.inj hy).trans heq
      · exact absurd hnan.1 hfinite
    · intro heq
      exact ⟨_, rfl, .inl heq⟩
  case isFalse h =>
    refine iff_of_true (readsDouble_fromF64 x) ?_
    rintro rfl
    have hvalue : value negativeZero = 0 := by
      rw [value_of_units units_negativeZero, Nat.cast_zero, neg_zero, ite_self]
    refine h ⟨by decide, isWhole_of_units units_negativeZero, ?_, ?_⟩
    · rw [hvalue]
      decide
    · rw [hvalue]
      decide

/-! ## §5 The helpers together -/

/-- **The boxing helpers keep a number exactly** if its 32 bits do not pass for a small integer, if
it is no negative zero, and if as a length it is below 3 · 2³⁰. -/
theorem boxing_exactly (n : Int) (x : BitVec 64) (len : Nat) (hn : n.natAbs ≤ 2 ^ 53)
    (hlen : (len : Int) ≤ u32Max) :
    BoxingHeld n x len ↔ Unwrapped n ∧ x ≠ negativeZero ∧ len < 3221225472 := by
  have hlength : ReadsInt (lengthValue (ofInt len)) len ↔ len < 3221225472 := by
    have hbound := hlen
    unfold u32Max at hbound
    rw [lengthValue_ofInt hlen, readsInt_smiOrF64 (by omega), unwrapped_length hlen]
  rw [← readsInt_smiOrF64 hn, ← readsDouble_jsNumber x, ← hlength]
  constructor
  · rintro ⟨hint, hdouble, hlength⟩
    exact ⟨hint, hdouble, hlength⟩
  · rintro ⟨hint, hdouble, hlength⟩
    exact ⟨hint, hdouble, hlength⟩

theorem boxing_exactly_large :
    BoxingHeld 2147483649 0x7FF0000000000000#64 3221225471 :=
  (boxing_exactly 2147483649 0x7FF0000000000000#64 3221225471 (by decide) (by decide)).mpr
    ⟨.inr (by decide), by decide, by decide⟩

/-- The longest length is read back as -1. -/
theorem not_boxingHeld : ¬ ∀ (n : Int) (x : BitVec 64) (len : Nat), n.natAbs ≤ 2 ^ 53 →
    (len : Int) ≤ u32Max → BoxingHeld n x len := by
  intro h
  have hlength := (h 0 0#64 4294967295 (by decide) (by decide)).length
  have hsmi : lengthValue (ofInt 4294967295) = .smi (-1) := by
    rw [show (4294967295 : Int) = ((4294967295 : Nat) : Int) from rfl,
      lengthValue_ofInt (by decide)]
    decide
  rw [show ((4294967295 : Nat) : Int) = 4294967295 from rfl, hsmi] at hlength
  exact absurd ((readsInt_smi (by decide)).mp hlength) (by decide)

end V12.Engine.Boxing
