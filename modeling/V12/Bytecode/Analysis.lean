/-
V12.Bytecode.Analysis — `v12-bytecode/src/analysis.rs`: instruction widths,
the "logical" pcs, which skip wide payloads, and the loop anchored at a header.
-/
import V12.Bytecode.Function
import V12.Bytecode.Wide

namespace V12.Bytecode

/-! ## §1 The layout walk -/

/-- `instr_width`: words taken by the instruction at `pc`. A malformed wide
sequence counts as one word, so a walk terminates on any input. -/
def instrWidth (instrs : List Instr) (pc : Nat) : Nat :=
  match instrs[pc]? with
  | none => 0
  | some instr =>
    match instr.op with
    | some .wide =>
      match WideOp.tryDecode (instrs.drop (min pc instrs.length)) with
      | .ok (_, width) => width
      | .error _ => 1
    | _ => 1

/-! ## §2 Counted loops -/

structure CountedLoop where
  header : BitVec 32
  exit : Option (BitVec 32)
  /-- `induction`. -/
  inductionReg : Option (BitVec 8)
  backedge : BitVec 32
  deriving DecidableEq, Repr

/-- The two sites the walk keeps once it has found them. -/
structure LoopSites where
  exit : Option (BitVec 32)
  inductionReg : Option (BitVec 8)

/-- `!is_backedge` of a conditional branch at `pc`: its target is not in `[header, pc)`. -/
def branchesOut (header : BitVec 32) (pc : Nat) (instr : Instr) : Bool :=
  let target := instr.imm16.setWidth 32
  !(decide (header ≤ target) && decide (target < BitVec.ofNat 32 pc))

/-- The canonical update: the destination byte of the word is one of its operand bytes. -/
def selfUpdate (instr : Instr) : Option (BitVec 8) :=
  if instr.a = instr.b ∨ instr.a = instr.c then some instr.a else none

/-- The arms of the walk that go on, with `get_or_insert` as `Option.or`. -/
def LoopSites.visit (header : BitVec 32) (pc : Nat) (instr : Instr) (sites : LoopSites) :
    LoopSites :=
  match instr.op with
  | some .jumpIfFalse | some .jumpIfTrue =>
    if branchesOut header pc instr then
      { sites with exit := sites.exit.or (some (BitVec.ofNat 32 pc)) }
    else sites
  | some .add | some .sub =>
    { sites with inductionReg := sites.inductionReg.or (selfUpdate instr) }
  | _ => sites

/-- The loop of `find_counted_loop` from `pc`: `none` where it breaks before a backedge. -/
def findCountedLoopFrom (instrs : List Instr) (header : BitVec 32) :
    Nat → Nat → LoopSites → Option CountedLoop
  | 0, _, _ => none
  | fuel + 1, pc, sites =>
    match instrs[pc]? with
    | none => none
    | some instr =>
      match instr.op with
      | none | some .loopHeader => none
      | some op =>
        if op = .jump ∧ instr.imm24 = header then
          some ⟨header, sites.exit, sites.inductionReg, BitVec.ofNat 32 pc⟩
        else if instrWidth instrs pc = 0 then none
        else
          findCountedLoopFrom instrs header fuel (pc + instrWidth instrs pc)
            (sites.visit header pc instr)

/-- `find_counted_loop`. -/
def findCountedLoop (fb : FunctionBytecode) (header : BitVec 32) : Option CountedLoop :=
  findCountedLoopFrom fb.instrs header fb.instrs.length
    (header.toNat + instrWidth fb.instrs header.toNat) ⟨none, none⟩

end V12.Bytecode
