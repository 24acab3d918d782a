/-
V12.Bccompiler.BranchTargets — the targets `FunctionBuilder::finish` writes.

A unit is emitted by a sequence of builder calls; `FnCtx::emit_jump` puts a
`RegExt` prefix in front of a branch whose condition register is wide.
`branchesFrom` and `boundFrom` read off the calls where each branch stands
and where each label is bound.
-/
import V12.Bytecode.Builder
import V12.Bccompiler.EmitRegs
import V12.Bccompiler.Round

namespace V12.Bccompiler

open V12.Bytecode

/-! ## §1 The calls of an emission -/

/-- One call made while a unit is emitted. -/
inductive Emission where
  | label
  | bind (l : Nat)
  | emit (instr : Instr) (span : Nat × Nat)
  /-- `FnCtx::emit_jump`, with its 16-bit condition register. -/
  | emitJump (op : BranchOp) (cond : BitVec 16) (target : Nat)
  | reserveRegs (count : BitVec 16)
  | addConst (const : Const)
  | pushHandler (handler : HandlerRange)
  deriving DecidableEq, Repr

/-- The words in front of a branch on `cond`. -/
def condPrefix (cond : BitVec 16) : List Instr :=
  if fitsNarrow cond then [] else (WideOp.regExt 0b0001 (highByte cond) 0 0).encode

/-- `FnCtx::emit_jump`. -/
def emitJump (b : FunctionBuilder) (op : BranchOp) (cond : BitVec 16) (target : Nat) :
    FunctionBuilder :=
  ((condPrefix cond).foldl (fun b word => b.emit word (0, 0)) b).emitJump op (lowByte cond) target

namespace Emission

def call (b : FunctionBuilder) : Emission → Option FunctionBuilder
  | label => some b.label
  | bind l => b.bind l
  | emit instr span => some (b.emit instr span)
  | emitJump op cond target => some (Bccompiler.emitJump b op cond target)
  | reserveRegs count => some (b.reserveRegs count)
  | addConst const => (b.addConst const).map Prod.snd
  | pushHandler handler => some (b.pushHandler handler)

def words : Emission → List Instr
  | emit instr _ => [instr]
  | emitJump op cond _ => condPrefix cond ++ [branchWord op (lowByte cond)]
  | _ => []

end Emission

def emitAll (b : FunctionBuilder) (es : List Emission) : Option FunctionBuilder :=
  es.foldlM Emission.call b

/-- An emitted branch: where its word stands and the label it goes to. -/
structure Branch where
  pc : Nat
  op : BranchOp
  label : Nat

def Branch.fixup (br : Branch) : Fixup := ⟨BitVec.ofNat 32 br.pc, br.label, br.op = .jump⟩

/-- The branch of a call made at `pc`. -/
def Emission.branch (pc : Nat) : Emission → Option Branch
  | emitJump op cond target => some ⟨pc + (condPrefix cond).length, op, target⟩
  | _ => none

/-- The branches of the calls made from `pc` on. -/
def branchesFrom (pc : Nat) : List Emission → List Branch
  | [] => []
  | e :: es => (e.branch pc).toList ++ branchesFrom (pc + e.words.length) es

/-- Where the calls made from `pc` on bind a label. -/
def boundFrom (pc l : Nat) : List Emission → Option Nat
  | [] => none
  | e :: es => if e = .bind l then some pc else boundFrom (pc + e.words.length) l es

/-! ## §2 What the calls leave in the builder -/

/-- The builder after the calls, in terms of the calls. -/
structure BuiltBy (b b' : FunctionBuilder) (es : List Emission) : Prop where
  instrs : b'.instrs = b.instrs ++ es.flatMap Emission.words
  fixups : b'.fixups = b.fixups ++ (branchesFrom b.instrs.length es).map Branch.fixup
  bound : ∀ l, boundPc b'.labels l =
    (boundPc b.labels l).or ((boundFrom b.instrs.length l es).map (BitVec.ofNat 32))

theorem boundPc_label (labels : List (Option (BitVec 32))) (l : Nat) :
    boundPc (labels ++ [none]) l = boundPc labels l := by
  unfold boundPc
  rcases Nat.lt_trichotomy l labels.length with hlt | rfl | hgt
  · rw [List.getElem?_append_left hlt]
  · simp
  · rw [List.getElem?_eq_none (by simp; omega), List.getElem?_eq_none (by omega)]

variable {labels : List (Option (BitVec 32))} {b b' : FunctionBuilder} {es : List Emission}
  {pc : Nat} {br : Branch} {w : Instr} {op : BranchOp}

theorem boundPc_bind {l : Nat} (h : labels[l]? = some none) (pc : BitVec 32) (k : Nat) :
    boundPc (labels.set l (some pc)) k = if l = k then some pc else boundPc labels k := by
  unfold boundPc
  by_cases hk : l = k
  · subst hk
    rw [List.getElem?_set_self (List.getElem?_eq_some_iff.mp h).1]
    simp
  · rw [List.getElem?_set_ne hk, if_neg hk]

theorem builtBy_plain {e : Emission} (hbind : ∀ l, e ≠ .bind l)
    (hbranch : e.branch b.instrs.length = none) (hinstrs : b'.instrs = b.instrs ++ e.words)
    (hfixups : b'.fixups = b.fixups) (hlabels : ∀ l, boundPc b'.labels l = boundPc b.labels l) :
    BuiltBy b b' [e] where
  instrs := by simpa using hinstrs
  fixups := by simp [branchesFrom, hbranch, hfixups]
  bound l := by simp [boundFrom, hbind l, hlabels]

theorem emits_instrs (ws : List Instr) (b : FunctionBuilder) :
    ws.foldl (fun b word => b.emit word (0, 0)) b =
      { b with
        instrs := b.instrs ++ ws
        spans := b.spans ++ ws.map fun _ => (0, 0) } := by
  induction ws generalizing b with
  | nil => simp
  | cons w ws ih =>
    rw [List.foldl_cons, ih]
    simp [FunctionBuilder.emit]

/-- **One call.** -/
theorem builtBy_call {e : Emission} (h : e.call b = some b') :
    BuiltBy b b' [e] := by
  cases e with
  | label =>
    cases h
    exact builtBy_plain (by simp) rfl (by simp [Emission.words, FunctionBuilder.label]) rfl
      (boundPc_label b.labels)
  | bind l =>
    simp only [Emission.call, FunctionBuilder.bind] at h
    split at h
    case h_1 hslot =>
      cases h
      refine ⟨by simp [Emission.words], by simp [branchesFrom, Emission.branch], fun k => ?_⟩
      rw [boundPc_bind hslot]
      by_cases hk : l = k
      · subst hk
        have hfree : boundPc b.labels l = none := by simp [boundPc, hslot]
        simp [boundFrom, hfree]
      · simp [boundFrom, hk]
    case h_2 => cases h
  | emit instr span =>
    cases h
    exact builtBy_plain (by simp) rfl rfl rfl (fun _ => rfl)
  | emitJump op cond target =>
    cases h
    rw [emitJump, emits_instrs]
    refine ⟨?_, ?_, fun l => ?_⟩
    · simp [FunctionBuilder.emitJump, FunctionBuilder.emit, Emission.words]
    · simp [FunctionBuilder.emitJump, FunctionBuilder.emit, branchesFrom, Emission.branch,
        Branch.fixup]
    · simp [FunctionBuilder.emitJump, FunctionBuilder.emit, boundFrom]
  | reserveRegs count =>
    cases h
    exact builtBy_plain (by simp) rfl (by simp [Emission.words, FunctionBuilder.reserveRegs]) rfl
      (fun _ => rfl)
  | addConst const =>
    obtain ⟨⟨id, b''⟩, hconst, rfl⟩ := Option.map_eq_some_iff.mp h
    unfold FunctionBuilder.addConst at hconst
    split at hconst
    · cases hconst
      exact builtBy_plain (by simp) rfl (by simp [Emission.words]) rfl (fun _ => rfl)
    · split at hconst
      · cases hconst
      · cases hconst
        exact builtBy_plain (by simp) rfl (by simp [Emission.words]) rfl (fun _ => rfl)
  | pushHandler handler =>
    cases h
    exact builtBy_plain (by simp) rfl (by simp [Emission.words, FunctionBuilder.pushHandler]) rfl
      (fun _ => rfl)

/-- **All the calls.** -/
theorem builtBy_emitAll (h : emitAll b es = some b') : BuiltBy b b' es := by
  induction es generalizing b with
  | nil =>
    cases h
    exact ⟨by simp, by simp [branchesFrom], fun l => by simp [boundFrom]⟩
  | cons e es ih =>
    rw [emitAll, List.foldlM_cons] at h
    obtain ⟨mid, hmid, hrest⟩ := Option.bind_eq_some_iff.mp h
    have hone := builtBy_call hmid
    have hmany := ih hrest
    have hlen : mid.instrs.length = b.instrs.length + e.words.length := by
      simp [hone.instrs]
    refine ⟨?_, ?_, fun l => ?_⟩
    · simp [hmany.instrs, hone.instrs]
    · simp [hmany.fixups, hone.fixups, hlen, branchesFrom]
    · rw [hmany.bound, hone.bound, hlen]
      by_cases hbind : e = .bind l
      · simp [boundFrom, hbind, Emission.words]
      · simp [boundFrom, hbind]

/-! ## §3 Where the branches stand -/

theorem branch_bounds {e : Emission} (h : e.branch pc = some br) :
    pc ≤ br.pc ∧ br.pc < pc + e.words.length := by
  cases e with
  | emitJump op cond target =>
    cases h
    simp [Emission.words]
  | _ => cases h

theorem mem_branchesFrom_cons {e : Emission} :
    br ∈ branchesFrom pc (e :: es) ↔
      e.branch pc = some br ∨ br ∈ branchesFrom (pc + e.words.length) es := by
  simp [branchesFrom]

theorem le_of_mem_branchesFrom (h : br ∈ branchesFrom pc es) : pc ≤ br.pc := by
  induction es generalizing pc with
  | nil => cases h
  | cons e es ih =>
    rcases mem_branchesFrom_cons.mp h with hhere | hrest
    · exact (branch_bounds hhere).1
    · have := ih hrest
      omega

theorem branchesFrom_sorted (es : List Emission) (pc : Nat) :
    (branchesFrom pc es).Pairwise fun br br' => br.pc < br'.pc := by
  induction es generalizing pc with
  | nil => exact List.Pairwise.nil
  | cons e es ih =>
    cases hbranch : e.branch pc with
    | none => simpa [branchesFrom, hbranch] using ih _
    | some br =>
      simp only [branchesFrom, hbranch, Option.toList_some, List.singleton_append]
      refine List.pairwise_cons.mpr ⟨fun br' hbr' => ?_, ih _⟩
      have := (branch_bounds hbranch).2
      have := le_of_mem_branchesFrom hbr'
      omega

theorem getElem?_words (h : br ∈ branchesFrom pc es) :
    ∃ cond, (es.flatMap Emission.words)[br.pc - pc]? = some (branchWord br.op cond) := by
  induction es generalizing pc with
  | nil => cases h
  | cons e es ih =>
    rw [List.flatMap_cons]
    rcases mem_branchesFrom_cons.mp h with hhere | hrest
    · cases e with
      | emitJump op cond target =>
        cases hhere
        refine ⟨lowByte cond, ?_⟩
        simp [Emission.words]
      | _ => cases hhere
    · obtain ⟨cond, hget⟩ := ih hrest
      have hle := le_of_mem_branchesFrom hrest
      refine ⟨cond, ?_⟩
      rw [List.getElem?_append_right (by omega), ← hget]
      congr 1
      omega

theorem boundFrom_le {l p : Nat} (h : boundFrom pc l es = some p) :
    p ≤ pc + (es.flatMap Emission.words).length := by
  induction es generalizing pc with
  | nil => cases h
  | cons e es ih =>
    rw [List.flatMap_cons, List.length_append]
    rw [boundFrom] at h
    split at h
    case isTrue =>
      cases h
      omega
    case isFalse =>
      have := ih h
      omega

/-! ## §4 Writing a target -/

def branchLimit (op : BranchOp) : Nat := if op = .jump then 2 ^ 24 else 2 ^ 16

/-- What is left of a target when a branch writes the target 0 over it. -/
def cleared (op : BranchOp) (target : Nat) : Nat :=
  if op = .jump then 0 else target / 2 ^ 16 * 2 ^ 16

theorem imm24_setImm16_zero (w : Instr) :
    (w.setImm16 0#16).imm24.toNat = w.imm24.toNat / 2 ^ 16 * 2 ^ 16 := by
  have hbits : (w.setImm16 0#16).imm24 = (w.imm24 >>> 16) <<< 16 := by
    apply BitVec.eq_of_getLsbD_eq
    intro j hj
    simp only [Instr.imm24, Instr.setImm16, BitVec.getLsbD_and, BitVec.getLsbD_or,
      BitVec.getLsbD_not, BitVec.getLsbD_shiftLeft, BitVec.getLsbD_ushiftRight,
      Instr.maxImm24_getLsbD, Instr.low16Mask_getLsbD, Lib.getLsbD_place]
    grind
  have hlt := Instr.imm24_toNat_lt w
  rw [hbits, BitVec.toNat_shiftLeft, BitVec.toNat_ushiftRight, Nat.shiftLeft_eq,
    Nat.shiftRight_eq_div_pow]
  omega

theorem imm16_setImm24_zero (w : Instr) : (w.setImm24 0#32).imm16 = 0 := by
  rw [Instr.imm16_eq_field]
  apply BitVec.eq_of_getLsbD_eq
  intro j hj
  simp [Instr.setImm24, Lib.getLsbD_field, Instr.opcodeMask_getLsbD]
  omega

@[simp] theorem op_write (f : Fixup) (v : BitVec 32) (w : Instr) : (f.write v w).op = w.op := by
  unfold Fixup.write
  split <;> simp

theorem branchOf_opcode (h : w.op = some op.toOpcode) :
    branchOf w = some (if op = .jump then w.imm24.toNat else w.imm16.toNat) := by
  cases op with
  | jump => simpa using branchOf_jump h
  | jumpIfFalse => simpa using branchOf_conditional (Or.inl h)
  | jumpIfTrue => simpa using branchOf_conditional (Or.inr (Or.inl h))
  | jumpIfNullish => simpa using branchOf_conditional (Or.inr (Or.inr h))

theorem branchWord_target (op : BranchOp) (cond : BitVec 8) :
    (branchWord op cond).op = some op.toOpcode ∧ branchOf (branchWord op cond) = some 0 := by
  by_cases hjump : op = .jump
  · subst hjump
    rw [branchWord, if_pos rfl]
    exact ⟨by decide, by decide⟩
  · have hop : (branchWord op cond).op = some op.toOpcode := by
      simp [branchWord, hjump, Instr.newImm16]
    refine ⟨hop, ?_⟩
    rw [branchOf_opcode hop]
    simp [branchWord, hjump, Instr.newImm16, Instr.imm16, Lib.field, Lib.place]

theorem branchOf_write (br : Branch) (h : w.op = some br.op.toOpcode) (v : BitVec 32) :
    branchOf (br.fixup.write v w) = some (v.toNat % branchLimit br.op) := by
  have hop : (br.fixup.write v w).op = some br.op.toOpcode := by simpa using h
  rw [branchOf_opcode hop]
  by_cases hjump : br.op = .jump
  · have hmask : maxImm24.toNat = 2 ^ 24 - 1 := by decide
    simp only [hjump, if_true, Branch.fixup, Fixup.write, decide_true, branchLimit,
      Instr.imm24_setImm24, BitVec.toNat_and, hmask, Nat.and_two_pow_sub_one_eq_mod]
  · simp [hjump, Branch.fixup, Fixup.write, branchLimit]

theorem branchOf_write_zero (br : Branch) (h : w.op = some op.toOpcode) {t : Nat}
    (ht : branchOf w = some t) :
    branchOf (br.fixup.write 0 w) = some (cleared br.op t) := by
  have hop : (br.fixup.write 0 w).op = some op.toOpcode := by simpa using h
  rw [branchOf_opcode h, Option.some.injEq] at ht
  rw [branchOf_opcode hop, Option.some.injEq]
  subst ht
  by_cases hwide : br.op = .jump
  · by_cases hjump : op = .jump
    · simp [hwide, hjump, Branch.fixup, Fixup.write, cleared]
    · simp [hwide, hjump, Branch.fixup, Fixup.write, cleared, imm16_setImm24_zero]
  · by_cases hjump : op = .jump
    · simp [hwide, hjump, Branch.fixup, Fixup.write, cleared, imm24_setImm16_zero]
    · -- a 16-bit target is cleared whole
      simpa [hwide, hjump, Branch.fixup, Fixup.write, cleared] using w.imm16.isLt

theorem cleared_le (op : BranchOp) (t : Nat) : cleared op t ≤ t := by
  unfold cleared
  split <;> omega

/-! ## §5 The finished branches -/

/-- The branches whose patches reach word `i`. -/
def writers (brs : List Branch) (i : Nat) : List Branch := brs.filter fun br => br.pc % 2 ^ 32 = i

theorem patched_branches (labels : List (Option (BitVec 32))) (brs : List Branch) (i : Nat)
    (w : Instr) : patched labels (brs.map Branch.fixup) i w =
      (writers brs i).foldl (fun w br => br.fixup.apply labels w) w := by
  have hsite : (fun f : Fixup => decide (f.site.toNat = i)) ∘ Branch.fixup =
      fun br : Branch => decide (br.pc % 2 ^ 32 = i) := by
    funext br
    simp [Branch.fixup]
  rw [patched, writers, List.filter_map, List.foldl_map, hsite]

theorem writers_far (brs : List Branch) {i : Nat} (h : 2 ^ 32 ≤ i) : writers brs i = [] := by
  rw [writers, List.filter_eq_nil_iff]
  intro br _
  simp only [decide_eq_true_eq]
  omega

theorem writers_near {brs : List Branch} (hsorted : brs.Pairwise fun br br' => br.pc < br'.pc)
    (hmem : br ∈ brs) (h : br.pc < 2 ^ 32) :
    ∃ rest, writers brs br.pc = br :: rest ∧
      ∀ br', br' ∈ rest ↔ br' ∈ brs ∧ br.pc < br'.pc ∧ br'.pc % 2 ^ 32 = br.pc := by
  obtain ⟨before, after, rfl⟩ := List.append_of_mem hmem
  obtain ⟨-, hafter, hcross⟩ := List.pairwise_append.mp hsorted
  obtain ⟨hhead, -⟩ := List.pairwise_cons.mp hafter
  have hbefore (br' : Branch) (hmem' : br' ∈ before) : br'.pc < br.pc :=
    hcross br' hmem' br List.mem_cons_self
  have hnone : writers before br.pc = [] := by
    rw [writers, List.filter_eq_nil_iff]
    intro br' hmem'
    have := hbefore br' hmem'
    simp only [decide_eq_true_eq]
    omega
  have hself : br.pc % 2 ^ 32 = br.pc := Nat.mod_eq_of_lt h
  refine ⟨writers after br.pc, ?_, fun br' => ?_⟩
  · have happend : writers (before ++ br :: after) br.pc =
        writers before br.pc ++ writers (br :: after) br.pc := by
      simp only [writers, List.filter_append]
    rw [happend, hnone, List.nil_append, writers, List.filter_cons_of_pos (by simpa using hself)]
    rfl
  · rw [writers, List.mem_filter, List.mem_append, List.mem_cons, decide_eq_true_eq]
    constructor
    · rintro ⟨hin, hmod⟩
      exact ⟨Or.inr (Or.inr hin), hhead br' hin, hmod⟩
    · rintro ⟨hin | rfl | hin, hlt, hmod⟩
      · have := hbefore br' hin
        omega
      · omega
      · exact ⟨hin, hmod⟩

theorem foldl_write_zero {rest : List Branch}
    (hzero : ∀ br ∈ rest, boundPc labels br.label = some 0) {t : Nat}
    (hop : w.op = some op.toOpcode) (ht : branchOf w = some t) :
    (rest.foldl (fun w br => br.fixup.apply labels w) w).op = some op.toOpcode ∧
      branchOf (rest.foldl (fun w br => br.fixup.apply labels w) w) =
        some (rest.foldl (fun t br => cleared br.op t) t) := by
  induction rest generalizing w t with
  | nil => exact ⟨hop, ht⟩
  | cons br rest ih =>
    have happly : br.fixup.apply labels w = br.fixup.write 0 w := by
      have hbound : boundPc labels br.fixup.label = some 0 := hzero br List.mem_cons_self
      rw [Fixup.apply, hbound]
    rw [List.foldl_cons, List.foldl_cons, happly]
    exact ih (fun br' hbr' => hzero br' (List.mem_cons_of_mem _ hbr')) (by simpa using hop)
      (branchOf_write_zero br hop ht)

theorem foldl_cleared_le (rest : List Branch) (t : Nat) :
    rest.foldl (fun t br => cleared br.op t) t ≤ t := by
  induction rest generalizing t with
  | nil => exact Nat.le_refl t
  | cons br rest ih => exact Nat.le_trans (ih _) (cleared_le br.op t)

theorem foldl_cleared_eq_iff (rest : List Branch) (t : Nat) :
    rest.foldl (fun t br => cleared br.op t) t = t ↔ ∀ br ∈ rest, cleared br.op t = t := by
  induction rest with
  | nil => simp
  | cons br rest ih =>
    rw [List.foldl_cons, List.forall_mem_cons]
    constructor
    · intro heq
      have hstep : cleared br.op t = t := by
        have := foldl_cleared_le rest (cleared br.op t)
        have := cleared_le br.op t
        omega
      rw [hstep] at heq
      exact ⟨hstep, ih.mp heq⟩
    · rintro ⟨hstep, hrest⟩
      rw [hstep]
      exact ih.mpr hrest

/-! ## §6 Exactness -/

/-- The branch stands in the code and goes to `p`. -/
def GoesTo (instrs : List Instr) (br : Branch) (p : Nat) : Prop :=
  ∃ w, instrs[br.pc]? = some w ∧ w.op = some br.op.toOpcode ∧ branchOf w = some p

def Exact (es : List Emission) (fb : FunctionBytecode) : Prop :=
  ∀ br ∈ branchesFrom 0 es, ∀ p, boundFrom 0 br.label es = some p → GoesTo fb.instrs br p

/-- The branch at `br`, to `p`, fits: there is room for the target; a branch that
patches from 2^32 on do not reach goes to 0; and a patch of such a branch that
arrives at `br` instead leaves the target as it is. -/
structure BranchFits (es : List Emission) (br : Branch) (p : Nat) : Prop where
  room : p < branchLimit br.op
  reached : 2 ^ 32 ≤ br.pc → p = 0
  alone : ∀ br' ∈ branchesFrom 0 es, br.pc < br'.pc → br'.pc % 2 ^ 32 = br.pc →
    cleared br'.op p = p

def Fits (es : List Emission) : Prop :=
  ∀ br ∈ branchesFrom 0 es, ∀ p, boundFrom 0 br.label es = some p → BranchFits es br p

theorem patch_bound {fixups : List Fixup} {instrs instrs' : List Instr}
    (h : fixups.foldlM (Fixup.patch labels) instrs = some instrs') (hbound : none ∉ labels) :
    ∀ f ∈ fixups, ∃ pc, boundPc labels f.label = some pc := by
  induction fixups generalizing instrs with
  | nil => intro f hf; cases hf
  | cons f fixups ih =>
    rw [List.foldlM_cons] at h
    obtain ⟨mid, hmid, hrest⟩ := Option.bind_eq_some_iff.mp h
    intro f' hf'
    rcases List.mem_cons.mp hf' with rfl | hf'
    · unfold Fixup.patch at hmid
      split at hmid
      case h_1 => cases hmid
      case h_2 hslot => exact absurd (List.mem_of_getElem? hslot) hbound
      case h_3 targetPc hslot => exact ⟨targetPc, by rw [boundPc, hslot]; rfl⟩
    · exact ih hrest f' hf'

section Finished

variable {es : List Emission} {b : FunctionBuilder} {fb : FunctionBytecode}

/-- What the calls left for `finish`. -/
structure Finished (es : List Emission) (b : FunctionBuilder) (fb : FunctionBytecode) : Prop where
  bound : ∀ br ∈ branchesFrom 0 es, ∃ p, boundFrom 0 br.label es = some p
  label : ∀ l p, boundFrom 0 l es = some p → boundPc b.labels l = some (BitVec.ofNat 32 p)
  word : ∀ br ∈ branchesFrom 0 es, ∃ w, w.op = some br.op.toOpcode ∧ branchOf w = some 0 ∧
    fb.instrs[br.pc]? = some ((writers (branchesFrom 0 es) br.pc).foldl
      (fun w br => br.fixup.apply b.labels w) w)

theorem finished_of_finish (hrun : emitAll .new es = some b) (hfinish : b.finish = some fb) :
    Finished es b fb := by
  obtain ⟨hinstrs, hfixups, hlabels⟩ := builtBy_emitAll hrun
  obtain ⟨hunbound, hfold⟩ := finish_eq_some hfinish
  have hnew (l : Nat) : boundPc FunctionBuilder.new.labels l = none := by
    simp [boundPc, FunctionBuilder.new]
  have hlabels' (l : Nat) :
      boundPc b.labels l = (boundFrom 0 l es).map (BitVec.ofNat 32) := by
    rw [hlabels, hnew, Option.none_or]
    rfl
  have hfixups' : b.fixups = (branchesFrom 0 es).map Branch.fixup := by
    simpa [FunctionBuilder.new] using hfixups
  have hinstrs' : b.instrs = es.flatMap Emission.words := by
    simpa [FunctionBuilder.new] using hinstrs
  refine ⟨fun br hbr => ?_, fun l p hp => ?_, fun br hbr => ?_⟩
  · have hmem : br.fixup ∈ b.fixups := hfixups' ▸ List.mem_map_of_mem hbr
    obtain ⟨pc, hpc⟩ := patch_bound hfold hunbound _ hmem
    rw [hlabels'] at hpc
    obtain ⟨p, hp, -⟩ := Option.map_eq_some_iff.mp hpc
    exact ⟨p, hp⟩
  · rw [hlabels', hp, Option.map_some]
  · obtain ⟨cond, hget⟩ := getElem?_words hbr
    obtain ⟨hop, htarget⟩ := branchWord_target br.op cond
    refine ⟨branchWord br.op cond, hop, htarget, ?_⟩
    rw [Nat.sub_zero] at hget
    rw [getElem?_finish hfinish, hinstrs', hget, Option.map_some, hfixups', patched_branches]

theorem goesTo_far (h : Finished es b fb) {br : Branch} (hbr : br ∈ branchesFrom 0 es)
    (hfar : 2 ^ 32 ≤ br.pc) (p : Nat) : GoesTo fb.instrs br p ↔ p = 0 := by
  obtain ⟨w, hop, htarget, hget⟩ := h.word br hbr
  rw [writers_far _ hfar, List.foldl_nil] at hget
  constructor
  · rintro ⟨w', hw', -, hp⟩
    rw [hget, Option.some.injEq] at hw'
    subst hw'
    rw [htarget, Option.some.injEq] at hp
    exact hp.symm
  · rintro rfl
    exact ⟨w, hget, hop, htarget⟩

theorem goesTo_near (h : Finished es b fb) {br : Branch} (hbr : br ∈ branchesFrom 0 es)
    (hnear : br.pc < 2 ^ 32) {p : Nat} (hp : boundFrom 0 br.label es = some p)
    (hzero : ∀ br' ∈ branchesFrom 0 es, 2 ^ 32 ≤ br'.pc → boundFrom 0 br'.label es = some 0) :
    GoesTo fb.instrs br p ↔ p < branchLimit br.op ∧
      ∀ br' ∈ branchesFrom 0 es, br.pc < br'.pc → br'.pc % 2 ^ 32 = br.pc →
        cleared br'.op p = p := by
  obtain ⟨w, hop, -, hget⟩ := h.word br hbr
  obtain ⟨rest, hwriters, hrest⟩ := writers_near (branchesFrom_sorted es 0) hbr hnear
  have hown : br.fixup.apply b.labels w = br.fixup.write (BitVec.ofNat 32 p) w := by
    have hlabel : boundPc b.labels br.fixup.label = some (BitVec.ofNat 32 p) := h.label _ _ hp
    rw [Fixup.apply, hlabel]
  have hzeros : ∀ br' ∈ rest, boundPc b.labels br'.label = some 0 := by
    intro br' hbr'
    obtain ⟨hmem, hlt, hmod⟩ := (hrest br').mp hbr'
    exact h.label _ _ (hzero br' hmem (by omega))
  obtain ⟨hop', htarget⟩ := foldl_write_zero hzeros
    (show (br.fixup.write (BitVec.ofNat 32 p) w).op = some br.op.toOpcode by simpa using hop)
    (branchOf_write br hop _)
  rw [hwriters, List.foldl_cons, hown] at hget
  have hlimit : branchLimit br.op ∣ 2 ^ 32 := by
    unfold branchLimit
    split <;> decide
  rw [BitVec.toNat_ofNat, Nat.mod_mod_of_dvd _ hlimit] at htarget
  have hpos : 0 < branchLimit br.op := by
    unfold branchLimit
    split <;> decide
  have hgoes : GoesTo fb.instrs br p ↔
      rest.foldl (fun t br => cleared br.op t) (p % branchLimit br.op) = p := by
    constructor
    · rintro ⟨w', hw', -, hp'⟩
      rw [hget, Option.some.injEq] at hw'
      subst hw'
      rw [htarget, Option.some.injEq] at hp'
      exact hp'
    · intro heq
      exact ⟨_, hget, hop', htarget.trans (congrArg some heq)⟩
  rw [hgoes]
  constructor
  · intro heq
    have hle := foldl_cleared_le rest (p % branchLimit br.op)
    have hlt := Nat.mod_lt p hpos
    have hroom : p < branchLimit br.op := by omega
    rw [Nat.mod_eq_of_lt hroom, foldl_cleared_eq_iff] at heq
    exact ⟨hroom, fun br' hmem hlt' hmod => heq br' ((hrest br').mpr ⟨hmem, hlt', hmod⟩)⟩
  · rintro ⟨hroom, halone⟩
    rw [Nat.mod_eq_of_lt hroom, foldl_cleared_eq_iff]
    intro br' hbr'
    obtain ⟨hmem, hlt, hmod⟩ := (hrest br').mp hbr'
    exact halone br' hmem hlt hmod

/-- **`finish` is exact exactly on branches that fit.** -/
theorem exact_iff_fits (h : Finished es b fb) : Exact es fb ↔ Fits es := by
  constructor
  · intro hexact
    have hfar (br : Branch) (hbr : br ∈ branchesFrom 0 es) (hlt : 2 ^ 32 ≤ br.pc) (p : Nat)
        (hp : boundFrom 0 br.label es = some p) : p = 0 :=
      (goesTo_far h hbr hlt p).mp (hexact br hbr p hp)
    have hzero (br : Branch) (hbr : br ∈ branchesFrom 0 es) (hlt : 2 ^ 32 ≤ br.pc) :
        boundFrom 0 br.label es = some 0 := by
      obtain ⟨p, hp⟩ := h.bound br hbr
      rw [hp, hfar br hbr hlt p hp]
    intro br hbr p hp
    by_cases hlt : br.pc < 2 ^ 32
    · obtain ⟨hroom, halone⟩ := (goesTo_near h hbr hlt hp hzero).mp (hexact br hbr p hp)
      exact ⟨hroom, fun hle => absurd hle (by omega), halone⟩
    · have hp0 := hfar br hbr (by omega) p hp
      subst hp0
      refine ⟨?_, fun _ => rfl, fun br' _ _ hmod => by omega⟩
      unfold branchLimit
      split <;> decide
  · intro hfits br hbr p hp
    have hzero (br : Branch) (hbr : br ∈ branchesFrom 0 es) (hlt : 2 ^ 32 ≤ br.pc) :
        boundFrom 0 br.label es = some 0 := by
      obtain ⟨p, hp⟩ := h.bound br hbr
      rw [hp, (hfits br hbr p hp).reached hlt]
    have hfit := hfits br hbr p hp
    by_cases hlt : br.pc < 2 ^ 32
    · exact (goesTo_near h hbr hlt hp hzero).mpr ⟨hfit.room, hfit.alone⟩
    · exact (goesTo_far h hbr (by omega) p).mpr (hfit.reached (by omega))

end Finished

end V12.Bccompiler
