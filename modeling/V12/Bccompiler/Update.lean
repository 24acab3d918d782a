/-
V12.Bccompiler.Update — `++` and `--`, from `update` in
`v12-bccompiler/src/expr.rs`.

`update` adds 1 or -1 to the value read from the target with the operator `+`
and returns the register of the sum, or for a postfix form the register of the
value as it was read. ECMAScript converts that value with ToNumeric first.
`update_iff` says for which old values the two agree.
-/
import V12.Bccompiler.Sequencing
import V12.Interp.Coercions

namespace V12.Expression

open V12.Heap (JsValue f64OfInt)
open V12.Bytecode (BranchOp Opcode)
open V12.Interp

variable {P : Plans} {W : Type}

/-! ## §1 The emission -/

/-- `UpdateOperator`. -/
inductive UpdateOp where
  | increment | decrement
  deriving DecidableEq

def UpdateOp.delta : UpdateOp → Int
  | .increment => 1
  | .decrement => -1

def emitBump (op : UpdateOp) (old : Nat) : Emit P W Nat := do
  let one ← newTemp
  emit (.load one (.smi op.delta))
  let new ← newTemp
  emit (.apply (.opcode .add) (some new) [old, one])
  pure new

structure UpdateRegs where
  ref : Ref
  old : Nat
  new : Nat

/-- `update` up to the store. -/
def updateOperands (op : UpdateOp) (target : Target W) : Emit P W UpdateRegs := do
  let ref ← targetRef target
  let old ← readCurrent ref
  let new ← emitBump op old
  pure ⟨ref, old, new⟩

/-- The register `update` returns. -/
def UpdateRegs.result (isPrefix : Bool) (u : UpdateRegs) : Nat := if isPrefix then u.new else u.old

/-- `update`. -/
def update (op : UpdateOp) (isPrefix : Bool) (target : Target W) : Emit P W Nat := do
  let u ← updateOperands op target
  u.ref.store u.new
  pure (u.result isPrefix)

/-! ## §2 What ECMAScript defines -/

/-- A machine whose `Add` is the interpreter's. -/
structure NumericMachine (W : Type) extends Machine W, Coercions W where
  bigintValue : Nat → Int
  apply_add : ∀ l r w, apply (.opcode .add) [l, r] w = toCoercions.addArm l r w

def toNumeric (M : NumericMachine W) (v : JsValue) (w : W) : Option (JsValue × W) :=
  match M.toPrimitiveWithHint .number v w with
  | none | some (.symbol _, _) => none
  | some (.bigint h, w') => some (.bigint h, w')
  | some (p, w') => some (if (numOf p).isSome then p else boxNumber (M.toNumber w' p), w')

/-- `new` is the numeric value `num` plus or minus one. -/
def IsSum (M : NumericMachine W) (op : UpdateOp) (num new : JsValue) : Prop :=
  match num with
  | .bigint h => ∃ h', new = .bigint h' ∧ M.bigintValue h' = M.bigintValue h + op.delta
  | n => ∃ bits, numOf n = some bits ∧
    new = boxNumber (addF64 bits (f64OfInt op.delta))

/-- What is asked of one evaluation, from the read on: where the conversion of the old value
throws the store is not reached; else the conversion is the one effect before it, the
target is given the sum, and the register returned holds the numeric or the sum. -/
def HeldAt (M : NumericMachine W) (op : UpdateOp) (isPrefix : Bool) (target : Target W)
    (cx : FnCtx P) (f : Frame W) (ref : Ref) (old : Nat) (f₂ : Frame W) (r : Nat)
    (code : List (Item W)) : Prop :=
  (toNumeric M (f₂.regs old) f₂.world = none →
    (updateOperands op target).runFrom M.toMachine cx f = none) ∧
  ∀ num w, toNumeric M (f₂.regs old) f₂.world = some (num, w) →
    ∃ new cx₃ f₃, (updateOperands op target).runFrom M.toMachine cx f =
        some (⟨ref, old, new⟩, cx₃, f₃) ∧ f₃.world = w ∧ IsSum M op num (f₃.regs new) ∧
      f₃.regs r = (if isPrefix then f₃.regs new else num) ∧
      completes M.toMachine code f =
        ((ref.store new).runFrom M.toMachine cx₃ f₃).map (fun res => res.2.2) ∧
      ∀ f', completes M.toMachine code f = some f' → f'.regs r = f₃.regs r

def UpdateHeld (M : NumericMachine W) (op : UpdateOp) (isPrefix : Bool) (target : Target W)
    (cx : FnCtx P) (f : Frame W) : Prop :=
  ∀ ref cx₁ f₁ old cx₂ f₂ r cx' code,
    (targetRef target).runFrom M.toMachine cx f = some (ref, cx₁, f₁) →
    (readCurrent ref).runFrom M.toMachine cx₁ f₁ = some (old, cx₂, f₂) →
    update op isPrefix target cx = some (r, cx', code) →
      HeldAt M op isPrefix target cx f ref old f₂ r code

def isPlain : JsValue → Bool
  | .string _ | .symbol _ | .bigint _ | .object _ => false
  | _ => true

/-- The old value is a Number; or it is to be returned in no other form than the sum, and its
primitive, if it has one, is neither a string, a Symbol nor a BigInt. -/
def Steady (M : NumericMachine W) (isPrefix : Bool) (old : JsValue) (w : W) : Prop :=
  (numOf old).isSome = true ∨
    ∀ p w', M.toPrimitiveWithHint .default old w = some (p, w') →
      isPlain p = true ∧ isPrefix = true

/-! ## §3 The sum and the numeric -/

theorem toPrimitive_number (C : Coercions W) (v : JsValue) (w : W) :
    C.toPrimitiveWithHint .number v w = C.toPrimitiveWithHint .default v w := by
  cases v <;> rfl

variable {v p : JsValue} {w w' : W} {op : UpdateOp} {old r : Nat} {cx cx' : FnCtx P}
  {code : List (Item W)} {ref : Ref} {f : Frame W}

theorem boxNumber_ne {n : BitVec 64} (h : (numOf v).isSome = false) :
    boxNumber n ≠ v := by
  intro heq
  have hnum := numOf_boxNumber_isSome n
  rw [heq, h] at hnum
  cases hnum

theorem addArm_eq (C : Coercions W) (old : JsValue) (d : Int) (w : W) :
    C.addArm old (.smi d) w =
      (C.toPrimitiveWithHint .default old w).bind fun r => C.add r.1 (.smi d) r.2 := rfl

theorem add_smi (C : Coercions W) (d : Int) (w : W) (hp : isString p = false) :
    C.add p (.smi d) w =
      some (boxNumber (addF64 (C.toNumber w p) (f64OfInt d)), w) := by
  rw [Coercions.add, hp]
  rfl

theorem add_string (C : Coercions W) {d : Int} (hp : isString p = true)
    (h : C.add p (.smi d) w = some (v, w')) : ∃ n, v = .string n := by
  rw [Coercions.add, hp] at h
  simp only [Bool.true_or, if_true, Option.bind_eq_bind, Option.bind_eq_some_iff] at h
  obtain ⟨ls, -, rs, -, heq⟩ := h
  cases heq
  exact ⟨_, rfl⟩

theorem numOf_boxNumber_f64OfInt {n : Int} (h : n.natAbs < 2 ^ 30) :
    numOf (boxNumber (f64OfInt n)) = some (f64OfInt n) := by
  have hsmi : Heap.JsValue.InSmi n := by
    unfold Heap.JsValue.InSmi Heap.JsValue.SMI_MIN Heap.JsValue.SMI_MAX
    omega
  rw [boxNumber_f64OfInt (by omega), Heap.smiValue_of_inSmi hsmi]
  rfl

theorem numOf_boxNumber_nan : numOf (boxNumber nanF64) = some nanF64 := by
  rw [boxNumber, if_neg fun h => h.1 (by decide)]
  decide

theorem numOf_plain (C : Coercions W) (w : W) (hp : isPlain p = true) :
    numOf (if (numOf p).isSome then p else boxNumber (C.toNumber w p)) =
      some (C.toNumber w p) := by
  have hint (n : Int) (h : n.natAbs < 2 ^ 30) (hnone : (numOf p).isSome = false)
      (hp : C.toNumber w p = f64OfInt n) :
      numOf (if (numOf p).isSome then p else boxNumber (C.toNumber w p)) =
        some (C.toNumber w p) := by
    rw [hnone, hp]
    exact numOf_boxNumber_f64OfInt h
  have hnan (hnone : (numOf p).isSome = false) (hp : C.toNumber w p = nanF64) :
      numOf (if (numOf p).isSome then p else boxNumber (C.toNumber w p)) =
        some (C.toNumber w p) := by
    rw [hnone, hp]
    exact numOf_boxNumber_nan
  cases p with
  | smi n => rfl
  | double n => rfl
  | bool b => exact hint (if b then 1 else 0) (by cases b <;> decide) rfl rfl
  | null => exact hint 0 (by decide) rfl rfl
  | undefined => exact hnan rfl rfl
  | hole => exact hnan rfl rfl
  | empty => exact hnan rfl rfl
  | _ => cases hp

/-- The sum, the numeric and the world between them, on one old value. -/
def SumAgrees (M : NumericMachine W) (op : UpdateOp) (isPrefix : Bool) (old : JsValue) (w : W) :
    Prop :=
  (toNumeric M old w = none → M.addArm old (.smi op.delta) w = none) ∧
    ∀ num w', toNumeric M old w = some (num, w') →
      ∃ new, M.addArm old (.smi op.delta) w = some (new, w') ∧ IsSum M op num new ∧
        (if isPrefix then new else old) = if isPrefix then new else num

theorem isSum_of_numOf {M : NumericMachine W} {num new : JsValue} {n : BitVec 64}
    (h : numOf num = some n) :
    IsSum M op num new ↔ new = boxNumber (addF64 n (f64OfInt op.delta)) := by
  have hiff : IsSum M op num new ↔ ∃ bits, numOf num = some bits ∧
      new = boxNumber (addF64 bits (f64OfInt op.delta)) := by
    cases num with
    | bigint b => cases h
    | _ => exact Iff.rfl
  rw [hiff]
  constructor
  · rintro ⟨bits, hbits, hnew⟩
    rw [h] at hbits
    cases hbits
    exact hnew
  · intro hnew
    exact ⟨n, h, hnew⟩

theorem toPrimitive_of_numOf {C : Coercions W} (hv : (numOf v).isSome = true)
    (h : C.toPrimitiveWithHint .default v w = some (p, w')) :
    p = v := by
  cases v with
  | object n => cases hv
  | _ =>
    cases h
    rfl

theorem toNumeric_plain {M : NumericMachine W}
    (h : M.toPrimitiveWithHint .default v w = some (p, w')) (hp : isPlain p = true) :
    toNumeric M v w =
      some (if (numOf p).isSome then p else boxNumber (M.toNumber w' p), w') := by
  rw [toNumeric, toPrimitive_number, h]
  cases p with
  | symbol n => cases hp
  | bigint n => cases hp
  | _ => rfl

theorem numeric_eq_iff {C : Coercions W} (h : C.toPrimitiveWithHint .default v w = some (p, w')) :
    v = (if (numOf p).isSome then p else boxNumber (C.toNumber w' p)) ↔
      (numOf v).isSome = true := by
  constructor
  · intro heq
    rw [heq]
    split
    case isTrue hnum => exact hnum
    case isFalse => exact numOf_boxNumber_isSome _
  · intro hnum
    rw [toPrimitive_of_numOf hnum h, if_pos hnum]

/-- **The sum is right exactly on steady values.** -/
theorem sumAgrees_iff (M : NumericMachine W) (op : UpdateOp) (isPrefix : Bool) (old : JsValue)
    (w : W) : SumAgrees M op isPrefix old w ↔ Steady M isPrefix old w := by
  cases hprim : M.toPrimitiveWithHint .default old w with
  | none =>
    have hnum : toNumeric M old w = none := by rw [toNumeric, toPrimitive_number, hprim]
    have hadd : M.addArm old (.smi op.delta) w = none := by rw [addArm_eq, hprim]; rfl
    refine iff_of_true ⟨fun _ => hadd, fun num w' h => ?_⟩ (.inr fun p w' h => ?_)
    · rw [hnum] at h
      cases h
    · rw [hprim] at h
      cases h
  | some res =>
    obtain ⟨p, w'⟩ := res
    have hadd : M.addArm old (.smi op.delta) w = M.add p (.smi op.delta) w' := by
      rw [addArm_eq, hprim]
      rfl
    have hsteady : Steady M isPrefix old w ↔
        (numOf old).isSome = true ∨ isPlain p = true ∧ isPrefix = true := by
      unfold Steady
      rw [hprim]
      constructor
      · exact fun h => h.imp_right fun h => h p w' rfl
      · intro h
        refine h.imp_right fun h q w'' heq => ?_
        cases heq
        exact h
    by_cases hplain : isPlain p = true
    · have hnum := toNumeric_plain hprim hplain
      have hstr : isString p = false := by
        cases p with
        | string n => cases hplain
        | _ => rfl
      have hsum := add_smi M.toCoercions op.delta w' hstr
      have hvalue := numOf_plain M.toCoercions w' hplain
      rw [hsteady]
      constructor
      · intro hagrees
        obtain ⟨new, -, -, hreturned⟩ := hagrees.2 _ _ hnum
        cases isPrefix with
        | true => exact .inr ⟨hplain, rfl⟩
        | false => exact .inl ((numeric_eq_iff hprim).mp hreturned)
      · intro hcond
        refine ⟨fun h => ?_, fun num w'' h => ?_⟩
        · rw [hnum] at h
          cases h
        · rw [hnum] at h
          cases h
          refine ⟨_, hadd.trans hsum, (isSum_of_numOf hvalue).mpr rfl, ?_⟩
          cases isPrefix with
          | true => rfl
          | false =>
            refine (numeric_eq_iff hprim).mpr (hcond.resolve_right fun h => ?_)
            cases h.2
    · -- a string, a Symbol or a BigInt
      have hold : (numOf old).isSome = false := by
        rw [Bool.eq_false_iff]
        intro hsome
        have hp := toPrimitive_of_numOf hsome hprim
        rw [← hp] at hsome
        cases p with
        | smi n => exact hplain rfl
        | double n => exact hplain rfl
        | _ => cases hsome
      refine iff_of_false (fun hagrees => ?_) fun h => ?_
      · cases p with
        | string n =>
          have hnum : toNumeric M old w = some (boxNumber (M.toNumber w' (.string n)), w') := by
            rw [toNumeric, toPrimitive_number, hprim]
            rfl
          obtain ⟨new, hnew, hsum, -⟩ := hagrees.2 _ _ hnum
          obtain ⟨bits, hbits⟩ :=
            Option.isSome_iff_exists.mp (numOf_boxNumber_isSome (M.toNumber w' (.string n)))
          rw [isSum_of_numOf hbits] at hsum
          rw [hadd] at hnew
          obtain ⟨k, rfl⟩ := add_string M.toCoercions rfl hnew
          exact boxNumber_ne rfl hsum.symm
        | symbol n =>
          have hnum : toNumeric M old w = none := by
            rw [toNumeric, toPrimitive_number, hprim]
          have hnone := hagrees.1 hnum
          rw [hadd, add_smi M.toCoercions op.delta w' rfl] at hnone
          cases hnone
        | bigint n =>
          have hnum : toNumeric M old w = some (.bigint n, w') := by
            rw [toNumeric, toPrimitive_number, hprim]
          obtain ⟨new, hnew, hsum, -⟩ := hagrees.2 _ _ hnum
          rw [hadd, add_smi M.toCoercions op.delta w' rfl] at hnew
          cases hnew
          obtain ⟨h', hbig, -⟩ := hsum
          exact boxNumber_ne rfl hbig
        | object n => cases Coercions.toPrimitiveWithHint_primitive _ hprim
        | _ => exact hplain rfl
      · rcases hsteady.mp h with hsome | hboth
        · rw [hold] at hsome
          cases hsome
        · exact hplain hboth.1

/-! ## §4 The run -/

theorem runFrom_emitBump (M : Machine W) {new : Nat} (hold : old < cx.tempTop)
    (h : emitBump op old cx = some (new, cx', code)) (f : Frame W) :
    cx.tempTop < new ∧ new < cx'.tempTop ∧
    (emitBump op old).runFrom M cx f =
      (M.apply (.opcode .add) [f.regs old, .smi op.delta] f.world).map fun r =>
        (new, cx', { f.write cx.tempTop (.smi op.delta) with world := r.2 }.write new r.1) := by
  have hall := h
  unfold emitBump at h
  obtain ⟨one, cx₁, code₁, rest₁, hone, hrest₁, rfl⟩ := bind_eq_some.mp h
  obtain ⟨_, cx₂, code₂, rest₂, hload, hrest₂, rfl⟩ := bind_eq_some.mp hrest₁
  obtain ⟨sum, cx₃, code₃, rest₃, hnew, hrest₃, rfl⟩ := bind_eq_some.mp hrest₂
  obtain ⟨_, cx₄, code₄, rest₄, hadd, hpure, rfl⟩ := bind_eq_some.mp hrest₃
  obtain ⟨rfl, htop₁, -, rfl⟩ := newTemps_eq_some hone
  cases hload
  obtain ⟨rfl, htop₃, -, rfl⟩ := newTemps_eq_some hnew
  cases hadd
  cases hpure
  refine ⟨by omega, by omega, ?_⟩
  have hargs : [old, cx.tempTop].map (f.write cx.tempTop (.smi op.delta)).regs =
      [f.regs old, .smi op.delta] := by
    rw [List.map_cons, List.map_singleton, write_regs_self,
      write_regs_of_ne _ _ (Nat.ne_of_lt hold)]
  have hrun : completes M ([] ++ ([.load cx.tempTop (.smi op.delta)] ++
      ([] ++ ([.apply (.opcode .add) (some cx₁.tempTop) [old, cx.tempTop]] ++ [])))) f =
      (M.apply (.opcode .add) [f.regs old, .smi op.delta] f.world).map fun r =>
        { f.write cx.tempTop (.smi op.delta) with world := r.2 }.write cx₁.tempTop r.1 := by
    have hworld : (f.write cx.tempTop (.smi op.delta)).world = f.world := rfl
    unfold completes
    simp only [exec, List.nil_append, List.singleton_append, List.append_nil, List.foldl_cons,
      List.foldl_nil, Item.exec, Item.run, hargs, hworld]
    cases M.apply (.opcode .add) [f.regs old, .smi op.delta] f.world with
    | none => rfl
    | some r => rfl
  rw [Emit.runFrom, hall]
  simp only
  rw [hrun]
  cases M.apply (.opcode .add) [f.regs old, .smi op.delta] f.world with
  | none => rfl
  | some r => rfl

theorem disciplined_emitBump (op : UpdateOp) {base : Nat} :
    Disciplined (W := W) base cx (emitBump op old) fun new cx' => Fresh cx new cx' := by
  unfold emitBump
  refine disciplined_newTemp.bind fun one cx₁ t₁ l₁ hone => ?_
  refine (disciplined_load _ hone.2).bind fun _ cx₂ t₂ l₂ _ => ?_
  refine disciplined_newTemp.bind fun new cx₃ t₃ l₃ hnew => ?_
  have hfresh : Fresh cx new cx₃ := ⟨by have := hnew.1; omega, hnew.2⟩
  exact disciplined_returning hfresh (disciplined_applyTo _ _ hnew.2)

theorem disciplined_updateOperands (op : UpdateOp) (target : Target W) (cx : FnCtx P) :
    Disciplined cx.labels cx (updateOperands op target) fun _ _ => True := by
  unfold updateOperands
  refine (fresh_targetRef target _ cx (Nat.le_refl _)).bind fun ref cx₁ t₁ l₁ _ => ?_
  refine (disciplined_readCurrent ref l₁).bind fun old cx₂ t₂ l₂ _ => ?_
  exact (disciplined_emitBump op).bind fun new cx₃ t₃ l₃ _ => .pure trivial

/-- The run of an update, from the value it read. -/
structure UpdateRun (M : Machine W) (op : UpdateOp) (isPrefix : Bool) (target : Target W)
    (cx : FnCtx P) (f : Frame W) (ref : Ref) (old : Nat) (f₂ : Frame W) (r : Nat)
    (code : List (Item W)) (new one : Nat) (cx₃ : FnCtx P) : Prop where
  result : r = if isPrefix then new else old
  old_lt : old < one
  one_lt : one < new
  new_lt : new < cx₃.tempTop
  temp : P.localsEnd ≤ old
  operands : (updateOperands op target).runFrom M cx f =
    (M.apply (.opcode .add) [f₂.regs old, .smi op.delta] f₂.world).map fun res =>
      (⟨ref, old, new⟩, cx₃, { f₂.write one (.smi op.delta) with world := res.2 }.write new res.1)
  whole : ∀ f₃, (updateOperands op target).runFrom M cx f = some (⟨ref, old, new⟩, cx₃, f₃) →
    completes M code f = ((ref.store new).runFrom M cx₃ f₃).map fun res => res.2.2

theorem exists_updateRun {M : Machine W} {isPrefix : Bool} {target : Target W} {cx₁ cx₂ : FnCtx P}
    {f₁ f₂ : Frame W} (hhead : (targetRef target).runFrom M cx f = some (ref, cx₁, f₁))
    (hread : (readCurrent ref).runFrom M cx₁ f₁ = some (old, cx₂, f₂))
    (h : update op isPrefix target cx = some (r, cx', code)) :
    ∃ new one cx₃, UpdateRun M op isPrefix target cx f ref old f₂ r code new one cx₃ := by
  obtain ⟨headCode, hheadCode⟩ := exists_of_runFrom hhead
  obtain ⟨readCode, hreadCode⟩ := exists_of_runFrom hread
  obtain ⟨u, cx₃, operandCode, restCode, hoperands, hrest, hcode⟩ := bind_eq_some.mp h
  obtain ⟨_, cx₄, storeCode, pureCode, hstore, hpure, hrestCode⟩ := bind_eq_some.mp hrest
  -- the parts of the operands are those that were run
  have hsplit := hoperands
  unfold updateOperands at hsplit
  obtain ⟨ref', cx₁', headCode', rest₁, hhead', hrest₁, -⟩ := bind_eq_some.mp hsplit
  rw [hheadCode] at hhead'
  cases hhead'
  obtain ⟨old', cx₂', readCode', rest₂, hread', hrest₂, -⟩ := bind_eq_some.mp hrest₁
  rw [hreadCode] at hread'
  cases hread'
  obtain ⟨new, cx₅, bumpCode, rest₃, hbump, hpure₃, -⟩ := bind_eq_some.mp hrest₂
  cases hpure₃
  cases hpure
  obtain ⟨htop₁, hlabels₁, -⟩ :=
    (fresh_targetRef target _ cx (Nat.le_refl _)).of_runFrom hhead
  obtain ⟨htop₂, hlabels₂, hfresh⟩ :=
    (disciplined_readCurrent ref (Nat.le_refl cx₁.labels)).of_runFrom hread
  obtain ⟨hone, hnew, hrun⟩ := runFrom_emitBump M hfresh.2 hbump f₂
  have habove := cx.above
  have hlow := hfresh.1
  refine ⟨new, cx₂.tempTop, cx₃, rfl, hfresh.2, hone, hnew, by omega, ?_, ?_⟩
  · unfold updateOperands
    rw [runFrom_bind_eq M (fresh_targetRef target _ cx (Nat.le_refl _)), hhead, Option.bind_some,
      runFrom_bind_eq M (disciplined_readCurrent ref (Nat.le_refl _)), hread, Option.bind_some,
      runFrom_bind_eq M (disciplined_emitBump op), hrun]
    · cases M.apply (.opcode .add) [f₂.regs old, .smi op.delta] f₂.world with
      | none => rfl
      | some res => rfl
    · exact fun _ _ _ _ => .pure trivial
    · exact fun _ cx₆ _ _ => (disciplined_emitBump op).bind fun _ _ _ _ _ => .pure trivial
    · intro ref₀ cx₆ _ _
      refine (disciplined_readCurrent ref₀ (Nat.le_refl _)).bind fun _ _ _ _ _ => ?_
      exact (disciplined_emitBump op).bind fun _ _ _ _ _ => .pure trivial
  · intro f₃ hrun₃
    have hcompletes : completes M code f =
        ((update op isPrefix target).runFrom M cx f).map fun res => res.2.2 := by
      rw [Emit.runFrom, h]
      simp only
      cases completes M code f with
      | none => rfl
      | some g => rfl
    have hpureRest : ∀ (a : Unit) (cx₆ : FnCtx P), cx₃.tempTop ≤ cx₆.tempTop → True →
        Disciplined (W := W) cx₆.labels cx₆
          (pure (UpdateRegs.result isPrefix ⟨ref, old, new⟩)) fun _ _ => True :=
      fun _ _ _ _ => .pure trivial
    rw [hcompletes, update, runFrom_bind_eq M (disciplined_updateOperands op target cx), hrun₃,
      Option.bind_some, runFrom_bind_eq M (disciplined_store ref new) hpureRest]
    · cases (ref.store new).runFrom M cx₃ f₃ with
      | none => rfl
      | some res => rfl
    · intro u cx₆ _ _
      exact (disciplined_store u.ref u.new).bind fun _ _ _ _ _ => .pure trivial

theorem heldAt_iff (M : NumericMachine W) {isPrefix : Bool} {target : Target W} {cx₁ cx₂ : FnCtx P}
    {f₁ f₂ : Frame W} (hhead : (targetRef target).runFrom M.toMachine cx f = some (ref, cx₁, f₁))
    (hread : (readCurrent ref).runFrom M.toMachine cx₁ f₁ = some (old, cx₂, f₂))
    (hupdate : update op isPrefix target cx = some (r, cx', code)) :
    HeldAt M op isPrefix target cx f ref old f₂ r code ↔
      SumAgrees M op isPrefix (f₂.regs old) f₂.world := by
  obtain ⟨new, one, cx₃, u⟩ := exists_updateRun hhead hread hupdate
  have hold := u.old_lt
  have hone := u.one_lt
  have hoperands := u.operands
  rw [M.apply_add] at hoperands
  constructor
  · rintro ⟨hthrows, hruns⟩
    refine ⟨fun hnone => ?_, fun num w hnum => ?_⟩
    · have hrun := hthrows hnone
      rw [hoperands, Option.map_eq_none_iff] at hrun
      exact hrun
    · obtain ⟨new', cx₃', f₃, hrun, hworld, hsum, hvalue, -, -⟩ := hruns num w hnum
      rw [hoperands, Option.map_eq_some_iff] at hrun
      obtain ⟨⟨v, w'⟩, hadd, heq⟩ := hrun
      cases heq
      cases hworld
      rw [write_regs_self] at hsum hvalue
      refine ⟨v, hadd, hsum, ?_⟩
      rw [← hvalue, u.result]
      cases isPrefix with
      | true => exact (write_regs_self _ _ _).symm
      | false =>
        show f₂.regs old = Frame.regs _ old
        rw [write_regs_of_ne _ _ (by omega)]
        exact (write_regs_of_ne _ _ (by omega)).symm
  · rintro ⟨hthrows, hruns⟩
    refine ⟨fun hnone => ?_, fun num w hnum => ?_⟩
    · rw [hoperands, hthrows hnone]
      rfl
    · obtain ⟨v, hadd, hsum, hvalue⟩ := hruns num w hnum
      have hrun : (updateOperands op target).runFrom M.toMachine cx f = some (⟨ref, old, new⟩, cx₃,
          { f₂.write one (.smi op.delta) with world := w }.write new v) := by
        rw [hoperands, hadd]
        rfl
      have hresult : r < cx₃.tempTop ∧ P.localsEnd ≤ r := by
        have htop := u.new_lt
        have htemp := u.temp
        rw [u.result]
        split <;> omega
      have hwhole := u.whole _ hrun
      refine ⟨new, cx₃, _, hrun, rfl, ?_, ?_, hwhole, ?_⟩
      · rw [write_regs_self]
        exact hsum
      · rw [write_regs_self, u.result]
        cases isPrefix with
        | true => exact write_regs_self _ _ _
        | false =>
          show Frame.regs _ old = num
          rw [write_regs_of_ne _ _ (by omega)]
          exact (write_regs_of_ne _ _ (by omega)).trans hvalue
      · intro f' hf'
        rw [hwhole, Option.map_eq_some_iff] at hf'
        obtain ⟨⟨_, cx₄, g⟩, hstore, rfl⟩ := hf'
        refine runFrom_store hresult.1 (fun sym dst hdst _ => ?_) hstore
        have hlocal := P.access_reg sym dst hdst
        omega

/-- **Update expressions.** An evaluation is right exactly when the value read is steady. -/
theorem update_iff (M : NumericMachine W) (op : UpdateOp) (isPrefix : Bool) (target : Target W)
    (cx : FnCtx P) (f : Frame W) :
    UpdateHeld M op isPrefix target cx f ↔
      ∀ ref cx₁ f₁ old cx₂ f₂ r cx' code,
        (targetRef target).runFrom M.toMachine cx f = some (ref, cx₁, f₁) →
        (readCurrent ref).runFrom M.toMachine cx₁ f₁ = some (old, cx₂, f₂) →
        update op isPrefix target cx = some (r, cx', code) →
          Steady M isPrefix (f₂.regs old) f₂.world := by
  constructor
  · intro hheld ref cx₁ f₁ old cx₂ f₂ r cx' code hhead hread hupdate
    rw [← sumAgrees_iff M op isPrefix, ← heldAt_iff M hhead hread hupdate]
    exact hheld ref cx₁ f₁ old cx₂ f₂ r cx' code hhead hread hupdate
  · intro hsteady ref cx₁ f₁ old cx₂ f₂ r cx' code hhead hread hupdate
    rw [heldAt_iff M hhead hread hupdate, sumAgrees_iff M op isPrefix]
    exact hsteady ref cx₁ f₁ old cx₂ f₂ r cx' code hhead hread hupdate

/-! ## §5 A string -/

def stringCoercions : Coercions Unit where
  stringToNumber _ _ := 0x4014000000000000
  toJsString w _ := some (0, w)
  concat w _ _ := (1, w)
  getProperty w _ _ := some (.undefined, w)
  callMethod w _ _ := some (.undefined, w)

def stringMachine : NumericMachine Unit where
  toMachine := { plainMachine with
    apply := fun op args w =>
      match op, args with
      | .opcode .add, [l, r] => stringCoercions.addArm l r w
      | _, _ => some (.undefined, w) }
  toCoercions := stringCoercions
  bigintValue _ := 0
  apply_add _ _ _ := rfl

/-- `x` is "5" in its register. -/
def stringFrame : Frame Unit := ⟨fun r => if r = 1 then .string 0 else .undefined, ()⟩

/-- **`x++` with `x` "5" stores a string.** -/
theorem not_updateHeld : ¬ ∀ (M : NumericMachine Unit) (op : UpdateOp) (isPrefix : Bool)
    (target : Target Unit) (cx : FnCtx localPlans) (f : Frame Unit),
      UpdateHeld M op isPrefix target cx f := by
  intro h
  have hheld := h stringMachine .increment false (.ident ⟨"x", some 0⟩) ⟨3, 0, by decide⟩
    stringFrame (.id 0) _ _ 3 _ _ 3 _ _ rfl rfl rfl
  have hagrees := (heldAt_iff stringMachine rfl rfl rfl).mp hheld
  rcases (sumAgrees_iff _ _ _ _ _).mp hagrees with hnum | hplain
  · cases hnum
  · cases (hplain (.string 0) () rfl).2

end V12.Expression
