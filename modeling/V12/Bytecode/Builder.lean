/-
V12.Bytecode.Builder — `FunctionBuilder` of `v12-bytecode/src/builder.rs`.

Labels are allocated unbound, bound to the pc of the next word, and written
into the branches by `finish`. A panic is `none`; the debug assertions are
off, as in a release build. `as u32` keeps the low 32 bits of a length.
`getElem?_finish`: the finished word at a pc is the emitted one with the
patches of its pc applied in order.
-/
import V12.Bytecode.Function

namespace V12.Bytecode

/-! ## §1 The builder -/

/-- One unresolved branch. -/
structure Fixup where
  /-- `at`: the index of the word to patch. -/
  site : BitVec 32
  label : Nat
  /-- A 24-bit target; conditional branches have 16 bits for it. -/
  wideTarget : Bool

structure FunctionBuilder where
  maxRegs : BitVec 16
  instrs : List Instr
  spans : List (Nat × Nat)
  consts : List Const
  handlers : List HandlerRange
  labels : List (Option (BitVec 32))
  fixups : List Fixup

/-- The opcodes `emit_jump` expects. -/
inductive BranchOp where
  | jump | jumpIfFalse | jumpIfTrue | jumpIfNullish
  deriving DecidableEq, Repr

def BranchOp.toOpcode : BranchOp → Opcode
  | jump => .jump
  | jumpIfFalse => .jumpIfFalse
  | jumpIfTrue => .jumpIfTrue
  | jumpIfNullish => .jumpIfNullish

/-- `MAX_CONSTANTS`. -/
def maxConstants : Nat := 65535

namespace FunctionBuilder

def new : FunctionBuilder where
  maxRegs := 1
  instrs := []
  spans := []
  consts := []
  handlers := []
  labels := []
  fixups := []

def reserveRegs (b : FunctionBuilder) (count : BitVec 16) : FunctionBuilder :=
  { b with maxRegs := if b.maxRegs < count then count else b.maxRegs }

def label (b : FunctionBuilder) : FunctionBuilder := { b with labels := b.labels ++ [none] }

/-- Binds a label to the next word; it panics when the label is bound. -/
def bind (b : FunctionBuilder) (l : Nat) : Option FunctionBuilder :=
  match b.labels[l]? with
  | some none => some { b with labels := b.labels.set l (some (BitVec.ofNat 32 b.instrs.length)) }
  | _ => none

/-- `emit_spanned`. -/
def emit (b : FunctionBuilder) (instr : Instr) (span : Nat × Nat) : FunctionBuilder :=
  { b with
    instrs := b.instrs ++ [instr]
    spans := b.spans ++ [span] }

/-- `add_const` with `ConstantPool::insert`; a full pool aborts the unit. -/
def addConst (b : FunctionBuilder) (const : Const) : Option (BitVec 16 × FunctionBuilder) :=
  if const ∈ b.consts then some (BitVec.ofNat 16 (b.consts.idxOf const), b)
  else if maxConstants ≤ b.consts.length then none
  else some (BitVec.ofNat 16 b.consts.length, { b with consts := b.consts ++ [const] })

def pushHandler (b : FunctionBuilder) (handler : HandlerRange) : FunctionBuilder :=
  { b with handlers := b.handlers ++ [handler] }

end FunctionBuilder

def branchWord (op : BranchOp) (condReg : BitVec 8) : Instr :=
  if op = .jump then Instr.newImm24 op.toOpcode 0 else Instr.newImm16 op.toOpcode condReg 0

namespace FunctionBuilder

def emitJump (b : FunctionBuilder) (op : BranchOp) (condReg : BitVec 8) (target : Nat) :
    FunctionBuilder :=
  { b.emit (branchWord op condReg) (0, 0) with
    fixups := b.fixups ++ [⟨BitVec.ofNat 32 b.instrs.length, target, op = .jump⟩] }

end FunctionBuilder

def Fixup.write (f : Fixup) (targetPc : BitVec 32) (word : Instr) : Instr :=
  if f.wideTarget then word.setImm24 targetPc else word.setImm16 (targetPc.setWidth 16)

/-- One turn of the patching loop of `finish`. -/
def Fixup.patch (labels : List (Option (BitVec 32))) (instrs : List Instr) (f : Fixup) :
    Option (List Instr) :=
  match labels[f.label]? with
  | none => none
  | some none => some instrs
  | some (some targetPc) =>
    match instrs[f.site.toNat]? with
    | none => none
    | some word => some (instrs.set f.site.toNat (f.write targetPc word))

/-- `finish`: it panics when a label was never bound. -/
def FunctionBuilder.finish (b : FunctionBuilder) : Option FunctionBytecode :=
  if none ∈ b.labels then none
  else
    (b.fixups.foldlM (Fixup.patch b.labels) b.instrs).map fun instrs =>
      { maxRegs := b.maxRegs
        instrs := instrs
        consts := b.consts
        handlers := b.handlers
        spans := b.spans }

/-! ## §2 The finished words -/

def boundPc (labels : List (Option (BitVec 32))) (l : Nat) : Option (BitVec 32) := labels[l]?.join

/-- The word with a fixup applied, when the label is bound. -/
def Fixup.apply (labels : List (Option (BitVec 32))) (word : Instr) (f : Fixup) : Instr :=
  match boundPc labels f.label with
  | some targetPc => f.write targetPc word
  | none => word

/-- The word with every patch of its pc applied, in order. -/
def patched (labels : List (Option (BitVec 32))) (fixups : List Fixup) (i : Nat) (word : Instr) :
    Instr :=
  (fixups.filter fun f => f.site.toNat = i).foldl (Fixup.apply labels) word

theorem getElem?_patch {labels : List (Option (BitVec 32))} {instrs instrs' : List Instr}
    {f : Fixup} (h : f.patch labels instrs = some instrs') (i : Nat) :
    instrs'[i]? = instrs[i]?.map fun w => if f.site.toNat = i then f.apply labels w else w := by
  unfold Fixup.patch at h
  split at h
  case h_1 => cases h
  case h_2 hslot =>
    cases h
    have hskip (w : Instr) : f.apply labels w = w := by
      rw [Fixup.apply, boundPc, hslot]
      rfl
    simp [hskip]
  case h_3 targetPc hslot =>
    have happly (w : Instr) : f.apply labels w = f.write targetPc w := by
      rw [Fixup.apply, boundPc, hslot]
      rfl
    split at h
    case h_1 => cases h
    case h_2 word hword =>
      cases h
      by_cases hi : f.site.toNat = i
      · subst hi
        rw [List.getElem?_set_self (List.getElem?_eq_some_iff.mp hword).1, hword]
        simp [happly]
      · rw [List.getElem?_set_ne hi]
        simp [hi]

/-- **A finished word** is the emitted word with the patches of its pc. -/
theorem getElem?_foldlM_patch {labels : List (Option (BitVec 32))} {fixups : List Fixup}
    {instrs instrs' : List Instr}
    (h : fixups.foldlM (Fixup.patch labels) instrs = some instrs') (i : Nat) :
    instrs'[i]? = instrs[i]?.map (patched labels fixups i) := by
  induction fixups generalizing instrs with
  | nil =>
    simp only [List.foldlM_nil, Option.pure_def, Option.some.injEq] at h
    subst h
    cases instrs[i]? <;> rfl
  | cons f fixups ih =>
    rw [List.foldlM_cons] at h
    obtain ⟨mid, hmid, hrest⟩ := Option.bind_eq_some_iff.mp h
    rw [ih hrest, getElem?_patch hmid, Option.map_map]
    congr 1
    funext w
    by_cases hi : f.site.toNat = i
    · simp [patched, hi]
    · simp [patched, hi]

theorem finish_eq_some {b : FunctionBuilder} {fb : FunctionBytecode} (h : b.finish = some fb) :
    none ∉ b.labels ∧ b.fixups.foldlM (Fixup.patch b.labels) b.instrs = some fb.instrs := by
  unfold FunctionBuilder.finish at h
  split at h
  case isTrue => cases h
  case isFalse hbound =>
    obtain ⟨instrs, hfold, rfl⟩ := Option.map_eq_some_iff.mp h
    exact ⟨hbound, hfold⟩

theorem getElem?_finish {b : FunctionBuilder} {fb : FunctionBytecode} (h : b.finish = some fb)
    (i : Nat) : fb.instrs[i]? = b.instrs[i]?.map (patched b.labels b.fixups i) :=
  getElem?_foldlM_patch (finish_eq_some h).2 i

end V12.Bytecode
