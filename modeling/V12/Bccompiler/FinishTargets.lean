/-
V12.Bccompiler.FinishTargets — `FnCtx::finish` and the branches of a unit.

The unit is assembled by the builder, its handlers are sorted, the peephole
pass runs and the validator has the last word. `finish_targets` follows every
emitted branch to the end.
-/
import V12.Bccompiler.BranchTargets
import V12.Bccompiler.JumpPlaces
import V12.Bccompiler.Handlers
import Mathlib.Data.List.Sort

namespace V12.Bccompiler

open V12.Bytecode

/-! ## §1 The end of a unit -/

/-- A recorded overflow, or the error of the validator. -/
inductive UnitError where
  | overflow (message : String) (span : Option (BitVec 32 × BitVec 32))
  | validate (e : BytecodeError)

/-- The parts of a unit's context that `finish` reads. -/
structure FnCtx where
  b : FunctionBuilder
  overflow : Option UnitError
  highWater : BitVec 16
  /-- Of the unit's plan. -/
  localsEnd : BitVec 16
  handlerMax : BitVec 32

/-- `MAX_REGS`. -/
def maxRegsLimit : BitVec 16 := 65535

namespace FnCtx

def regs (ctx : FnCtx) : BitVec 16 :=
  let regs := if ctx.highWater < ctx.localsEnd + 1 then ctx.localsEnd + 1 else ctx.highWater
  if regs.toNat < ctx.handlerMax.toNat then
    if ctx.handlerMax.toNat < 2 ^ 16 then ctx.handlerMax.setWidth 16 else maxRegsLimit
  else regs

end FnCtx

def rangeBefore (a b : HandlerRange) : Prop :=
  a.start < b.start ∨ a.start = b.start ∧ b.stop ≤ a.stop

instance (a b : HandlerRange) : Decidable (rangeBefore a b) :=
  inferInstanceAs (Decidable (_ ∨ _))

def FnCtx.assemble (ctx : FnCtx) : Option FunctionBytecode :=
  (ctx.b.reserveRegs ctx.regs).finish.map fun fb =>
    { fb with handlers := fb.handlers.insertionSort rangeBefore }

/-- `FnCtx::finish`; a panic of the builder is `none`. -/
def FnCtx.finish (ctx : FnCtx) : Option (Except UnitError FunctionBytecode) :=
  match ctx.overflow with
  | some err => some (.error err)
  | none =>
    ctx.assemble.map fun fb =>
      match (optimized fb).validate with
      | .ok () => .ok (optimized fb)
      | .error e => .error (.validate e)

theorem instrs_assemble {ctx : FnCtx} {fb unit : FunctionBytecode} (hfinish : ctx.b.finish = some fb)
    (hunit : ctx.assemble = some unit) : unit.instrs = fb.instrs := by
  obtain ⟨fb', hfb', rfl⟩ := Option.map_eq_some_iff.mp hunit
  have hword := (finish_eq_some hfb').2
  have hword' := (finish_eq_some hfinish).2
  rw [FunctionBuilder.reserveRegs] at hword
  exact Option.some.inj (hword.symm.trans hword')

theorem finish_ok {ctx : FnCtx} {fb' : FunctionBytecode} (h : ctx.finish = some (.ok fb')) :
    ∃ unit, ctx.assemble = some unit ∧ fb' = optimized unit := by
  unfold FnCtx.finish at h
  split at h
  case h_1 => cases h
  case h_2 =>
    obtain ⟨unit, hunit, hresult⟩ := Option.map_eq_some_iff.mp h
    refine ⟨unit, hunit, ?_⟩
    split at hresult
    · exact (Except.ok.inj hresult).symm
    · cases hresult

/-! ## §2 Branches to the end -/

/-- An emitted branch that the pass leaves goes to the place where its label went:
in front of the first survivor from the bound pc on. -/
def Placed (es : List Emission) (unit fb' : FunctionBytecode) : Prop :=
  ∀ br ∈ branchesFrom 0 es, ∀ p, boundFrom 0 br.label es = some p →
    ∀ j : Nat, (survivors unit)[j]? = some br.pc → ∃ w q, fb'.instrs[j]? = some w ∧
      w.op = some br.op.toOpcode ∧ branchOf w = some q ∧
        SamePlace fb'.instrs (rank (survivors unit) p) (min q fb'.instrs.length)

theorem length_finish {b : FunctionBuilder} {fb : FunctionBytecode} (h : b.finish = some fb) :
    fb.instrs.length = b.instrs.length := by
  have hend (i : Nat) : fb.instrs.length ≤ i ↔ b.instrs.length ≤ i := by
    rw [← List.getElem?_eq_none_iff, ← List.getElem?_eq_none_iff, getElem?_finish h]
    simp
  have h1 := hend fb.instrs.length
  have h2 := hend b.instrs.length
  omega

theorem placed_of_exact {es : List Emission} {b : FunctionBuilder} {fb unit : FunctionBytecode}
    (hemit : emitAll .new es = some b) (hfinish : b.finish = some fb) (hexact : Exact es fb)
    (hinstrs : unit.instrs = fb.instrs) (hrounds : RoundsMeet RoundFits maxRounds (code unit)) :
    Placed es unit (optimized unit) := by
  intro br hbr p hp j hj
  obtain ⟨w, hw, hop, htarget⟩ := hexact br hbr p hp
  have hcarried := carried_rounds maxRounds hrounds hj
  have hget : unit.instrs[br.pc]? = some w := by rw [hinstrs, hw]
  obtain ⟨w', q, hw', hop', hq, hsame⟩ := hcarried w p hget htarget
  refine ⟨w', q, hw', hop'.trans hop, hq, ?_⟩
  -- a label is bound inside the body or at its end
  have hle : p ≤ (code unit).instrs.length := by
    have hbound := boundFrom_le hp
    have hlen : b.instrs.length = (es.flatMap Emission.words).length := by
      rw [(builtBy_emitAll hemit).instrs]
      simp [FunctionBuilder.new]
    rw [code, hinstrs, length_finish hfinish, hlen]
    omega
  rw [Nat.min_eq_left hle] at hsame
  exact hsame

/-- **The branches of a unit.** -/
theorem finish_targets {es : List Emission} {ctx : FnCtx} {fb : FunctionBytecode}
    (hemit : emitAll .new es = some ctx.b) (hfinish : ctx.b.finish = some fb) :
    (Exact es fb ↔ Fits es) ∧
      (Fits es → ∀ unit, ctx.assemble = some unit →
        RoundsMeet RoundFits maxRounds (code unit) →
          ∀ fb', ctx.finish = some (.ok fb') → Placed es unit fb') := by
  have hiff := exact_iff_fits (finished_of_finish hemit hfinish)
  refine ⟨hiff, fun hfits unit hunit hrounds fb' hfb' => ?_⟩
  obtain ⟨unit', hunit', rfl⟩ := finish_ok hfb'
  rw [hunit, Option.some.injEq] at hunit'
  subst hunit'
  exact placed_of_exact hemit hfinish (hiff.mpr hfits) (instrs_assemble hfinish hunit) hrounds

/-- `if (r300) { r1 = r0 } return r0`. -/
def wideIf : List Emission :=
  [.label, .emitJump .jumpIfFalse 300 0, .emit (Instr.new .move 1 0 0) (0, 0), .bind 0,
    .emit (Instr.new .returnOp 0 0 0) (0, 0)]

def wideIfBuilder : FunctionBuilder where
  maxRegs := 1
  instrs := (WideOp.regExt 1 1 0 0).encode ++ [Instr.newImm16 .jumpIfFalse 44 0,
    Instr.new .move 1 0 0, Instr.new .returnOp 0 0 0]
  spans := List.replicate 5 (0, 0)
  consts := []
  handlers := []
  labels := [some 4]
  fixups := [⟨2, 0, false⟩]

def wideIfUnit : FunctionBytecode where
  maxRegs := 301
  instrs := (WideOp.regExt 1 1 0 0).encode ++ [Instr.newImm16 .jumpIfFalse 44 4,
    Instr.new .move 1 0 0, Instr.new .returnOp 0 0 0]
  consts := []
  handlers := []
  spans := List.replicate 5 (0, 0)

def wideIfCtx : FnCtx := ⟨wideIfBuilder, none, 301, 1, 0⟩

theorem finish_targets_wideIf :
    Exact wideIf { wideIfUnit with maxRegs := 1 } ∧ Placed wideIf wideIfUnit wideIfUnit := by
  have hfits : Fits wideIf := by
    intro br hbr p hp
    have hbranches : branchesFrom 0 wideIf = [⟨2, .jumpIfFalse, 0⟩] := by rfl
    rw [hbranches, List.mem_singleton] at hbr
    subst hbr
    have hpc : boundFrom 0 0 wideIf = some 4 := by decide +kernel
    rw [hpc, Option.some.injEq] at hp
    subst hp
    refine ⟨by decide, fun h => absurd h (by decide), fun br' hbr' hlt => ?_⟩
    rw [hbranches, List.mem_singleton] at hbr'
    subst hbr'
    exact absurd hlt (Nat.lt_irrefl _)
  have hrounds : RoundsMeet RoundFits maxRounds (code wideIfUnit) := by
    refine ⟨?_, fun hchanged => absurd hchanged (by decide +kernel)⟩
    unfold RoundFits ThreadingFits TurnFits
    decide +kernel
  have hemit : emitAll .new wideIf = some wideIfCtx.b := by rfl
  have hfinish : wideIfCtx.b.finish = some { wideIfUnit with maxRegs := 1 } := by rfl
  obtain ⟨hiff, hplaced⟩ := finish_targets hemit hfinish
  exact ⟨hiff.mpr hfits, hplaced hfits wideIfUnit (by rfl) hrounds wideIfUnit (by rfl)⟩

/-! ## §3 A body past the 16-bit window -/

/-- `if (r0) { … } return r0` with `n` words in the branch. -/
def longIf (n : Nat) : List Emission :=
  ([.label, .emitJump .jumpIfFalse 0 0] : List Emission) ++
    (List.replicate n (.emit (Instr.new .move 0 0 0) (0, 0)) ++
      [.bind 0, .emit (Instr.new .returnOp 0 0 0) (0, 0)])

theorem emitAll_emits (n : Nat) (w : Instr) (span : Nat × Nat) (es : List Emission)
    (b : FunctionBuilder) : emitAll b (List.replicate n (.emit w span) ++ es) =
      emitAll { b with
        instrs := b.instrs ++ List.replicate n w
        spans := b.spans ++ List.replicate n span } es := by
  induction n generalizing b with
  | zero => simp
  | succ n ih =>
    rw [List.replicate_succ, List.cons_append, emitAll, List.foldlM_cons]
    simp only [Emission.call, Option.bind_eq_bind, Option.bind_some]
    rw [← emitAll, ih]
    simp [FunctionBuilder.emit, List.replicate_succ]

theorem boundFrom_emits (n : Nat) (w : Instr) (span : Nat × Nat) (es : List Emission)
    (pc l : Nat) : boundFrom pc l (List.replicate n (.emit w span) ++ es) =
      boundFrom (pc + n) l es := by
  induction n generalizing pc with
  | zero => simp
  | succ n ih =>
    rw [List.replicate_succ, List.cons_append, boundFrom, if_neg (by simp), ih]
    simp [Emission.words, Nat.add_comm, Nat.add_left_comm]

def longIfBuilder (n : Nat) : FunctionBuilder where
  maxRegs := 1
  instrs := branchWord .jumpIfFalse 0 ::
    (List.replicate n (Instr.new .move 0 0 0) ++ [Instr.new .returnOp 0 0 0])
  spans := (0, 0) :: (List.replicate n (0, 0) ++ [(0, 0)])
  consts := []
  handlers := []
  labels := [some (BitVec.ofNat 32 (1 + n))]
  fixups := [⟨0, 0, false⟩]

theorem emitAll_longIf (n : Nat) : emitAll .new (longIf n) = some (longIfBuilder n) := by
  have hhead (es : List Emission) :
      emitAll .new (([.label, .emitJump .jumpIfFalse 0 0] : List Emission) ++ es) =
        emitAll (emitJump FunctionBuilder.new.label .jumpIfFalse 0 0) es := rfl
  rw [longIf, hhead, emitAll_emits]
  simp [emitAll, Emission.call, emitJump, condPrefix, fitsNarrow, lowByte, Lib.field,
    FunctionBuilder.emitJump, FunctionBuilder.emit, FunctionBuilder.bind, FunctionBuilder.label,
    FunctionBuilder.new, longIfBuilder, Nat.add_comm]

theorem boundFrom_longIf (n : Nat) : boundFrom 0 0 (longIf n) = some (1 + n) := by
  have hhead (es : List Emission) :
      boundFrom 0 0 (([.label, .emitJump .jumpIfFalse 0 0] : List Emission) ++ es) =
        boundFrom 1 0 es := rfl
  rw [longIf, hhead, boundFrom_emits]
  rfl

theorem finish_longIf (n : Nat) : ∃ fb, (longIfBuilder n).finish = some fb := by
  simp [FunctionBuilder.finish, longIfBuilder, Fixup.patch]

theorem not_fits_longIf {n : Nat} (hn : 65535 ≤ n) : ¬ Fits (longIf n) := by
  intro hfits
  have hmem : (⟨0, .jumpIfFalse, 0⟩ : Branch) ∈ branchesFrom 0 (longIf n) := List.mem_cons_self
  have hroom := (hfits _ hmem _ (boundFrom_longIf n)).room
  simp only [branchLimit] at hroom
  rw [if_neg (by decide)] at hroom
  omega

/-- With 65535 words in the branch its target is 65536, and `finish` writes 0. -/
theorem not_exact_longIf : ¬ ∀ (es : List Emission) (b : FunctionBuilder) (fb : FunctionBytecode),
    emitAll .new es = some b → b.finish = some fb → Exact es fb := by
  intro h
  obtain ⟨fb, hfb⟩ := finish_longIf 65535
  have hemit := emitAll_longIf 65535
  exact not_fits_longIf (Nat.le_refl _)
    ((exact_iff_fits (finished_of_finish hemit hfb)).mp (h _ _ _ hemit hfb))

end V12.Bccompiler
