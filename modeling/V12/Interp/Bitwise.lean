/-
V12.Interp.Bitwise — the bitwise and shift arms of `v12-interp/src/execute.rs`.

The arms read two numbers as doubles, reduce them with `to_int32` and
`to_uint32`, and box a 32-bit result. What ECMAScript defines is stated on
mathematical values. `operators_iff`: every arm gives that number, except
`>>>`, whose result is cast to `i32` and goes negative from 2³¹ on.
-/
import V12.Heap.ElementsSlots
import V12.Lib.Binary64

namespace V12.Interp

open V12.Heap V12.Heap.JsValue Lib.Binary64

variable {n : Int}

/-! ## §1 The arms -/

/-- `num_of`. -/
def numOf (v : JsValue) : Option (BitVec 64) :=
  match v.asF64 with
  | some n => some n
  | none => v.asSmi.map f64OfInt

/-- `to_uint32`. On whole doubles the remainder by 2³² and the sum of `rem_euclid`
are exact. -/
def toUint32 (n : BitVec 64) : BitVec 32 :=
  if IsFinite n then
    let r := (trunc n).tmod (2 ^ 32)
    BitVec.ofInt 32 (if r < 0 then r + 2 ^ 32 else r)
  else 0

/-- `to_int32`: the same bits, read as signed. -/
def toInt32 (n : BitVec 64) : BitVec 32 := toUint32 n

/-- `box_number`. -/
def boxNumber (n : BitVec 64) : JsValue :=
  if IsFinite n ∧ IsWhole n ∧ ¬ (units n = 0 ∧ negative n = true) then
    if SMI_MIN ≤ trunc n ∧ trunc n ≤ SMI_MAX then (fromI32Smi (trunc n)).getD (fromF64 n)
    else fromF64 n
  else fromF64 n

inductive Operator where
  | bitAnd | bitOr | bitXor | shl | shr | ushr
  deriving DecidableEq, Repr

/-- The `i32` an arm computes. -/
def Operator.word (op : Operator) (ln rn : BitVec 64) : BitVec 32 :=
  let shift := toUint32 rn &&& 31
  match op with
  | bitAnd => toInt32 ln &&& toInt32 rn
  | bitOr => toInt32 ln ||| toInt32 rn
  | bitXor => toInt32 ln ^^^ toInt32 rn
  | shl => toInt32 ln <<< shift
  | shr => (toInt32 ln).sshiftRight' shift
  -- the shift of a `u32`, cast to `i32`
  | ushr => toInt32 ln >>> shift

def Operator.arm (op : Operator) (l r : JsValue) : Option JsValue :=
  match numOf l, numOf r with
  | some ln, some rn => some (boxNumber (f64OfInt (op.word ln rn).toInt))
  | _, _ => none

/-! ## §2 What ECMAScript defines -/

/-- The mathematical value of a number; a NaN and the infinities have none. -/
def mathValue : JsValue → Option ℚ
  | .smi n => some n
  | .double n => if IsFinite n then some (value n) else none
  | _ => none

def esToUint32 : Option ℚ → Int
  | none => 0
  | some q => truncate q % 2 ^ 32

def esSigned (n : Int) : Int := if n % 2 ^ 32 < 2 ^ 31 then n % 2 ^ 32 else n % 2 ^ 32 - 2 ^ 32

def esToInt32 (x : Option ℚ) : Int := esSigned (esToUint32 x)

def esShift (y : Option ℚ) : Nat := (esToUint32 y % 32).toNat

def Operator.number (op : Operator) (x y : Option ℚ) : Int :=
  match op with
  | bitAnd => (BitVec.ofInt 32 (esToInt32 x) &&& BitVec.ofInt 32 (esToInt32 y)).toInt
  | bitOr => (BitVec.ofInt 32 (esToInt32 x) ||| BitVec.ofInt 32 (esToInt32 y)).toInt
  | bitXor => (BitVec.ofInt 32 (esToInt32 x) ^^^ BitVec.ofInt 32 (esToInt32 y)).toInt
  | shl => esSigned (esToInt32 x * 2 ^ esShift y)
  | shr => esToInt32 x / 2 ^ esShift y
  | ushr => esToUint32 x / 2 ^ esShift y

/-- The value is the number `n`, in either encoding, and not a negative zero. -/
def Represents (v : JsValue) (n : Int) : Prop :=
  v = .smi n ∨ ∃ bits, v = .double bits ∧ IsFinite bits ∧ value bits = n ∧
    (n = 0 → negative bits = false)

/-- A numeric operand: a double, or a small integer in its range. -/
def IsNumeric : JsValue → Prop
  | .smi n => InSmi n
  | .double _ => True
  | _ => False

def Numeric : Type := { v : JsValue // IsNumeric v }

/-! ## §3 Whole doubles -/

theorem f64OfInt_eq_pack (h : n ≠ 0) : f64OfInt n =
    pack (n < 0) (1023 + Nat.log2 n.natAbs)
      ((n.natAbs - 2 ^ Nat.log2 n.natAbs) * 2 ^ (52 - Nat.log2 n.natAbs)) := by
  rw [f64OfInt, if_neg h, pack]
  by_cases hneg : n < 0 <;> simp [hneg]

theorem f64OfInt_exact (h : n.natAbs < 2 ^ 53) :
    IsFinite (f64OfInt n) ∧ negative (f64OfInt n) = decide (n < 0) ∧
      units (f64OfInt n) = n.natAbs * unitsPerOne := by
  by_cases hzero : n = 0
  · subst hzero
    exact ⟨by decide, by decide, by rw [Int.natAbs_zero, Nat.zero_mul]; decide⟩
  · rw [f64OfInt_eq_pack hzero]
    obtain ⟨hneg, hfinite, hunits⟩ := units_pack_whole (by omega) h (decide (n < 0))
    exact ⟨hfinite, hneg, hunits⟩

theorem trunc_f64OfInt (h : n.natAbs < 2 ^ 53) : trunc (f64OfInt n) = n := by
  obtain ⟨-, hneg, hunits⟩ := f64OfInt_exact h
  rw [trunc_of_units hunits, hneg]
  simp only [decide_eq_true_eq]
  split <;> omega

theorem value_f64OfInt (h : n.natAbs < 2 ^ 53) : value (f64OfInt n) = n := by
  obtain ⟨-, hneg, hunits⟩ := f64OfInt_exact h
  have habs : (n : ℚ) = if n < 0 then -(n.natAbs : ℚ) else n.natAbs := by
    split
    case isTrue hlt =>
      have hcast : (n : ℚ) = ((-(n.natAbs : Int) : Int) : ℚ) := congrArg _ (by omega)
      simpa using hcast
    case isFalse hle =>
      have hcast : (n : ℚ) = ((n.natAbs : Int) : ℚ) := congrArg _ (by omega)
      simpa using hcast
  rw [value_of_units hunits, hneg, habs]
  simp only [decide_eq_true_eq]

theorem numOf_spec {v : JsValue} (h : IsNumeric v) : ∃ n, numOf v = some n ∧
    mathValue v = if IsFinite n then some (value n) else none := by
  cases v with
  | smi n =>
    have hlt : n.natAbs < 2 ^ 53 := by
      obtain ⟨hmin, hmax⟩ := h
      simp only [SMI_MIN, SMI_MAX] at hmin hmax
      omega
    refine ⟨f64OfInt n, rfl, ?_⟩
    rw [if_pos (f64OfInt_exact hlt).1, value_f64OfInt hlt]
    rfl
  | double n => exact ⟨n, rfl, rfl⟩
  | _ => exact absurd h (by simp [IsNumeric])

theorem boxNumber_f64OfInt (h : n.natAbs < 2 ^ 53) :
    boxNumber (f64OfInt n) = smiValue n := by
  obtain ⟨hfinite, hneg, hunits⟩ := f64OfInt_exact h
  have hnonneg : ¬ (units (f64OfInt n) = 0 ∧ negative (f64OfInt n) = true) := by
    rw [hunits, hneg]
    rintro ⟨hzero, hlt⟩
    rcases Nat.mul_eq_zero.mp hzero with h | h
    · rw [Int.natAbs_eq_zero.mp h] at hlt
      simp at hlt
    · exact absurd h (Nat.ne_of_gt unitsPerOne_pos)
  rw [boxNumber, if_pos ⟨hfinite, isWhole_of_units hunits, hnonneg⟩, trunc_f64OfInt h, smiValue]
  split
  case isTrue => rfl
  case isFalse hout =>
    have hnone : fromI32Smi n = none := if_neg hout
    rw [hnone, Option.getD_none]

theorem represents_smiValue (h : n.natAbs < 2 ^ 52) (k : Int) :
    Represents (smiValue n) k ↔ n = k := by
  have hlt : n.natAbs < 2 ^ 53 := by omega
  by_cases hsmi : InSmi n
  · rw [smiValue_of_inSmi hsmi]
    constructor
    · rintro (heq | ⟨bits, heq, -⟩)
      · exact JsValue.smi.inj heq
      · cases heq
    · rintro rfl
      exact Or.inl rfl
  · have hraw : IsRaw (f64OfInt n) := isRaw_of_lt (toNat_f64OfInt_lt h)
    have hnone : fromI32Smi n = none := if_neg hsmi
    rw [smiValue, hnone, Option.getD_none, fromF64_of_isRaw hraw]
    constructor
    · rintro (heq | ⟨bits, heq, -, hvalue, -⟩)
      · cases heq
      · cases heq
        rw [value_f64OfInt hlt] at hvalue
        exact_mod_cast hvalue
    · rintro rfl
      refine Or.inr ⟨f64OfInt n, rfl, (f64OfInt_exact hlt).1, value_f64OfInt hlt, fun hzero => ?_⟩
      subst hzero
      exact absurd (show InSmi 0 by decide) hsmi

/-! ## §4 Reduction to 32 bits -/

def valueOf (n : BitVec 64) : Option ℚ := if IsFinite n then some (value n) else none

theorem remEuclid_eq (t : Int) :
    (if t.tmod (2 ^ 32) < 0 then t.tmod (2 ^ 32) + 2 ^ 32 else t.tmod (2 ^ 32)) = t % 2 ^ 32 := by
  rw [Int.tmod_eq_emod]
  split <;> split <;> omega

theorem toUint32_eq (n : BitVec 64) : toUint32 n = BitVec.ofInt 32 (esToUint32 (valueOf n)) := by
  unfold toUint32 valueOf
  by_cases hfinite : IsFinite n
  · rw [if_pos hfinite, if_pos hfinite, esToUint32, truncate_value]
    simp only [remEuclid_eq]
  · rw [if_neg hfinite, if_neg hfinite]
    rfl

theorem esToUint32_bounds (x : Option ℚ) : 0 ≤ esToUint32 x ∧ esToUint32 x < 2 ^ 32 := by
  cases x with
  | none => exact ⟨by decide, by decide⟩
  | some q =>
    rw [esToUint32]
    omega

theorem toNat_toUint32 (n : BitVec 64) : ((toUint32 n).toNat : Int) = esToUint32 (valueOf n) := by
  obtain ⟨hmin, hmax⟩ := esToUint32_bounds (valueOf n)
  rw [toUint32_eq, BitVec.toNat_ofInt]
  omega

theorem toInt_ofInt_eq (n : Int) : (BitVec.ofInt 32 n).toInt = esSigned n := by
  rw [BitVec.toInt_ofInt, Int.bmod_def, esSigned]
  rfl

theorem toInt_toInt32 (n : BitVec 64) : (toInt32 n).toInt = esToInt32 (valueOf n) := by
  rw [toInt32, toUint32_eq, toInt_ofInt_eq]
  rfl

theorem ofInt_esToInt32 (n : BitVec 64) : BitVec.ofInt 32 (esToInt32 (valueOf n)) = toInt32 n := by
  rw [← toInt_toInt32, BitVec.ofInt_toInt]

theorem toNat_shift (n : BitVec 64) : (toUint32 n &&& 31).toNat = esShift (valueOf n) := by
  have hmask : (31 : BitVec 32).toNat = 2 ^ 5 - 1 := by decide
  have hnat := toNat_toUint32 n
  rw [BitVec.toNat_and, hmask, Nat.and_two_pow_sub_one_eq_mod, esShift]
  omega

/-! ## §5 The operators -/

theorem word_number {op : Operator} (hop : op ≠ .ushr) (ln rn : BitVec 64) :
    (op.word ln rn).toInt = op.number (valueOf ln) (valueOf rn) := by
  cases op with
  | bitAnd => simp only [Operator.word, Operator.number, ofInt_esToInt32]
  | bitOr => simp only [Operator.word, Operator.number, ofInt_esToInt32]
  | bitXor => simp only [Operator.word, Operator.number, ofInt_esToInt32]
  | shl =>
    have hpow (s : Nat) : BitVec.ofInt 32 (2 ^ s) = BitVec.twoPow 32 s := by
      rw [BitVec.twoPow_eq]
      apply BitVec.eq_of_toNat_eq
      simp [BitVec.toNat_ofInt, Nat.shiftLeft_eq]
      norm_cast
    simp only [Operator.word, Operator.number]
    rw [← toInt_ofInt_eq, BitVec.ofInt_mul, ofInt_esToInt32, hpow, ← BitVec.shiftLeft_eq_mul_twoPow,
      BitVec.shiftLeft_eq', toNat_shift]
  | shr =>
    simp only [Operator.word, Operator.number]
    rw [BitVec.toInt_sshiftRight', toNat_shift, toInt_toInt32, Int.shiftRight_eq_div_pow]
    norm_cast
  | ushr => exact absurd rfl hop

theorem ushr_number (ln rn : BitVec 64) :
    (Operator.ushr.word ln rn).toInt = Operator.ushr.number (valueOf ln) (valueOf rn) ↔
      (esShift (valueOf rn) = 0 → esToUint32 (valueOf ln) < 2 ^ 31) := by
  obtain ⟨hmin, hmax⟩ := esToUint32_bounds (valueOf ln)
  have hword : ((Operator.ushr.word ln rn).toNat : Int) =
      Operator.ushr.number (valueOf ln) (valueOf rn) := by
    simp only [Operator.word, Operator.number]
    rw [BitVec.ushiftRight_eq', toNat_shift, BitVec.toNat_ushiftRight, Nat.shiftRight_eq_div_pow,
      toInt32, Int.natCast_ediv, toNat_toUint32]
    norm_cast
  have hcast : (Operator.ushr.word ln rn).toInt =
      Operator.ushr.number (valueOf ln) (valueOf rn) ↔
        Operator.ushr.number (valueOf ln) (valueOf rn) < 2 ^ 31 := by
    have hlt := (Operator.ushr.word ln rn).isLt
    rw [← hword, BitVec.toInt_eq_toNat_cond]
    split <;> omega
  rw [hcast]
  simp only [Operator.number]
  generalize esShift (valueOf rn) = s
  cases s with
  | zero => simp
  | succ s =>
    -- one bit shifted out is enough
    have hhalf : esToUint32 (valueOf ln) / 2 ^ (s + 1) ≤ esToUint32 (valueOf ln) / 2 := by
      rw [Int.pow_succ, Int.mul_comm, ← Int.ediv_ediv_of_nonneg (by decide)]
      exact Int.ediv_le_self _ (by omega)
    constructor
    · intro _ h
      exact absurd h (Nat.succ_ne_zero s)
    · intro _
      omega

/-- **The bitwise and shift operators**: the number ECMAScript defines, but for
`>>>` by no bits of an operand from 2³¹ on. -/
theorem operators_iff (op : Operator) (l r : Numeric) :
    (∃ v, op.arm l.1 r.1 = some v ∧ Represents v (op.number (mathValue l.1) (mathValue r.1))) ↔
      (op = .ushr → esShift (mathValue r.1) = 0 → esToUint32 (mathValue l.1) < 2 ^ 31) := by
  obtain ⟨ln, hln, hl⟩ := numOf_spec l.2
  obtain ⟨rn, hrn, hr⟩ := numOf_spec r.2
  rw [← valueOf] at hl hr
  have harm : op.arm l.1 r.1 = some (boxNumber (f64OfInt (op.word ln rn).toInt)) := by
    rw [Operator.arm, hln, hrn]
  have hmin := BitVec.le_toInt (op.word ln rn)
  have hmax := BitVec.toInt_lt (x := op.word ln rn)
  rw [harm, hl, hr]
  simp only [Option.some.injEq, exists_eq_left']
  rw [boxNumber_f64OfInt (by omega), represents_smiValue (by omega)]
  by_cases hop : op = .ushr
  · subst hop
    rw [ushr_number]
    simp
  · simp [hop, word_number hop]

/-- `-1 >>> 0` is 4294967295, and the arm gives -1. -/
theorem not_operators : ¬ ∀ (op : Operator) (l r : Numeric), ∃ v, op.arm l.1 r.1 = some v ∧
    Represents v (op.number (mathValue l.1) (mathValue r.1)) := by
  intro h
  have hl : IsNumeric (.smi (-1)) := show InSmi (-1) by decide
  have hr : IsNumeric (.smi 0) := show InSmi 0 by decide
  obtain ⟨v, harm, hv⟩ := h .ushr ⟨.smi (-1), hl⟩ ⟨.smi 0, hr⟩
  have hneg : Operator.arm .ushr (.smi (-1)) (.smi 0) = some (.smi (-1)) := by decide +kernel
  have hceil : ⌈(-1 : ℚ)⌉ = -1 := by norm_num
  have hnumber : Operator.number .ushr (mathValue (.smi (-1))) (mathValue (.smi 0)) =
      4294967295 := by
    simp [Operator.number, mathValue, esToUint32, esShift, truncate, hceil]
  rw [hneg, Option.some.injEq] at harm
  subst harm
  rw [hnumber] at hv
  rcases hv with heq | ⟨bits, heq, -⟩
  · exact absurd (JsValue.smi.inj heq) (by decide)
  · cases heq

end V12.Interp
