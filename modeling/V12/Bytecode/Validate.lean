/-
V12.Bytecode.Validate — `FunctionBytecode::validate` and the operand
contract walk of `v12-bytecode/src/validate.rs`.

The walk is linear in pc order. It carries a `RegExt` prefix across one
step (`pending`) and the sizes of the environments this function
allocated (`envs`, innermost last).
-/
import V12.Bytecode.OpSpec
import V12.Bytecode.Function

namespace V12.Bytecode

/-! ## §1 Single checks -/

/-- `check_register`: rejects a register at or past the frame's file. -/
def checkRegister (at_ : BitVec 32) (op : Opcode) (operand : String) (reg : BitVec 16)
    (maxRegs : Nat) : Except BytecodeError Unit :=
  if reg.toNat < maxRegs then .ok ()
  else .error (.registerOutOfRange at_ op operand reg.toNat maxRegs)

/-- `check_positional_windows`: the operands that reach past their base. -/
def checkPositionalWindows (at_ : BitVec 32) (op : Opcode) (operands : Nat → BitVec 16)
    (maxRegs : Nat) : Except BytecodeError Unit :=
  let window (base : BitVec 16) (count : Nat) (name : String) : Except BytecodeError Unit :=
    if base.toNat + count < maxRegs then .ok ()
    else .error (.registerOutOfRange at_ op name (base.toNat + count) maxRegs)
  match op with
  | .newArray => window (operands 1) (operands 2).toNat "element window b + c"
  | .defineAccessor | .defineAccessorEnumerable => window (operands 2) 1 "accessor pair base + 1"
  | _ => .ok ()

/-- `check_env_access`: rejects a slot past an environment this function
allocated, and skips a depth naming an inherited one. -/
def checkEnvAccess (at_ : BitVec 32) (op : Opcode) (depth slot : Nat) (envs : List Nat) :
    Except BytecodeError Unit :=
  if depth + 1 ≤ envs.length then
    match envs[envs.length - (depth + 1)]? with
    | some envSlots =>
      if slot < envSlots then .ok () else .error (.envSlotOutOfRange at_ op depth slot envSlots)
    | none => .ok ()
  else .ok ()

/-- The role-directed register check of one narrow instruction. -/
def checkRegisters (at_ : BitVec 32) (op : Opcode) (operands : Nat → BitVec 16) (maxRegs : Nat) :
    Except BytecodeError Unit :=
  [0, 1, 2].forM fun index =>
    if (spec op).indexIsRegister index then
      checkRegister at_ op ((spec op).roleAt index).name (operands index) maxRegs
    else .ok ()

/-- A `Flag` operand must be `0` or `1` (`FLAG_VALUES`). -/
def checkFlags (at_ : BitVec 32) (op : Opcode) (bytes : Nat → BitVec 8) :
    Except BytecodeError Unit :=
  [0, 1, 2].forM fun index =>
    if (spec op).roleAt index = .flag ∧ bytes index ≠ 0 ∧ bytes index ≠ 1 then
      .error (.flagNotBoolean at_ op (bytes index))
    else .ok ()

def checkConstId (at_ : BitVec 32) (op : Opcode) (instr : Instr) (pool : Nat) :
    Except BytecodeError Unit :=
  if op = .loadConst ∧ pool ≤ instr.imm16.toNat then
    .error (.constIdOutOfRange at_ op instr.imm16.toNat pool)
  else .ok ()

/-- The absolute target of a branch, from its immediate. -/
def branchTarget (op : Opcode) (instr : Instr) : Option Nat :=
  match op with
  | .jump => some instr.imm24.toNat
  | .jumpIfFalse | .jumpIfTrue | .jumpIfNullish => some instr.imm16.toNat
  | _ => none

/-- A target equal to the stream's length is the implicit return. -/
def checkBranch (at_ : BitVec 32) (op : Opcode) (instr : Instr) (instrs : Nat) :
    Except BytecodeError Unit :=
  match branchTarget op instr with
  | some target =>
    -- `end` is the length as `u32`
    if instrs % 2 ^ 32 < target then .error (.branchTargetOutOfRange at_ op target instrs)
    else .ok ()
  | none => .ok ()

/-- The environment stack after one narrow instruction's own allocation. -/
def envsAfter (op : Opcode) (operands : Nat → BitVec 16) (envs : List Nat) : List Nat :=
  match op with
  | .newEnvironment =>
    match (spec op).roleSlot .slot with
    | some count => envs ++ [(operands count).toNat]
    | none => envs
  | .popEnvironment => envs.dropLast
  | _ => envs

/-- The `(depth, slot)` access, located by role. -/
def checkEnvRoles (at_ : BitVec 32) (op : Opcode) (operands : Nat → BitVec 16)
    (envs : List Nat) : Except BytecodeError Unit :=
  match (spec op).roleSlot .depth, (spec op).roleSlot .slot with
  | some depthAt, some slotAt =>
    checkEnvAccess at_ op (operands depthAt).toNat (operands slotAt).toNat envs
  | _, _ => .ok ()

/-! ## §2 One instruction -/

def Instr.bytes (instr : Instr) : Nat → BitVec 8
  | 0 => instr.a
  | 1 => instr.b
  | _ => instr.c

/-- A `RegExt` prefix: the slot mask and the three high bytes. -/
structure RegExtPrefix where
  mask : BitVec 8
  aHi : BitVec 8
  bHi : BitVec 8
  cHi : BitVec 8
  deriving DecidableEq, Repr

def RegExtPrefix.hi (p : RegExtPrefix) : Nat → BitVec 8
  | 0 => p.aHi
  | 1 => p.bHi
  | _ => p.cHi

/-- A slot byte with the prefix's high byte, where the mask claims the slot. -/
def mergeSlot (ext : Option RegExtPrefix) (instr : Instr) (index : Nat) : BitVec 16 :=
  match ext with
  | some p =>
    if p.mask.getLsbD index then Lib.place 8 16 (p.hi index) ||| Lib.place 0 16 (instr.bytes index)
    else Lib.place 0 16 (instr.bytes index)
  | none => Lib.place 0 16 (instr.bytes index)

/-- The checks of one narrow instruction; the result is the environment stack. -/
def checkNarrow (fb : FunctionBytecode) (pc : Nat) (op : Opcode) (instr : Instr)
    (ext : Option RegExtPrefix) (envs : List Nat) : Except BytecodeError (List Nat) := do
  let at_ := BitVec.ofNat 32 pc
  let operands := mergeSlot ext instr
  let maxRegs := fb.maxRegs.toNat
  checkRegisters at_ op operands maxRegs
  checkPositionalWindows at_ op operands maxRegs
  checkFlags at_ op instr.bytes
  checkConstId at_ op instr fb.consts.length
  checkBranch at_ op instr fb.instrs.length
  checkEnvRoles at_ op operands (envsAfter op operands envs)
  return envsAfter op operands envs

/-- The constant id of a `LoadConstW` must be in the pool. -/
def checkWideConstId (at_ : BitVec 32) (wide : WideOp) (pool : Nat) : Except BytecodeError Unit :=
  match wide with
  | .loadConstW _ constId =>
    if pool ≤ constId.toNat then .error (.constIdOutOfRange at_ .wide constId.toNat pool)
    else .ok ()
  | _ => .ok ()

/-- The environment stack after a wide instruction's own allocation. -/
def wideEnvsAfter (wide : WideOp) (envs : List Nat) : List Nat :=
  match wide.envAllocation with
  | some slots => envs ++ [slots]
  | none => envs

def checkWideEnv (at_ : BitVec 32) (wide : WideOp) (envs : List Nat) :
    Except BytecodeError Unit :=
  match wide.envAccess with
  | some (depth, slot) => checkEnvAccess at_ .wide depth slot envs
  | none => .ok ()

/-- `check_wide`: the same bounds, read from the decoded payload. -/
def checkWide (fb : FunctionBytecode) (pc : Nat) (wide : WideOp) (envs : List Nat) :
    Except BytecodeError (List Nat) := do
  let at_ := BitVec.ofNat 32 pc
  wide.eachRegister.forM fun (name, reg) =>
    checkRegister at_ .wide s!"{name} (wide)" reg fb.maxRegs.toNat
  checkWideConstId at_ wide fb.consts.length
  checkWideEnv at_ wide (wideEnvsAfter wide envs)
  return wideEnvsAfter wide envs

/-! ## §3 The walk -/

/-- After the last word: a prefix with nothing to extend is malformed. -/
def checkEnd (fb : FunctionBytecode) (pending : Option RegExtPrefix) :
    Except BytecodeError Unit :=
  if pending.isSome then .error (.truncatedWide fb.instrs.length) else .ok ()

/-- The loop of `check_operand_contract` from `pc`. The fuel bounds the
words left: when it runs out the stream has ended. -/
def checkFrom (fb : FunctionBytecode) :
    Nat → Nat → Option RegExtPrefix → List Nat → Except BytecodeError Unit
  | 0, _, pending, _ => checkEnd fb pending
  | fuel + 1, pc, pending, envs =>
    match fb.instrs[pc]? with
    | none => checkEnd fb pending
    | some instr =>
      match instr.op with
      | none => .error (.unassignedOpcode (BitVec.ofNat 32 pc) (Lib.field 24 8 instr.word))
      | some .wide =>
        match WideOp.tryDecode (fb.instrs.drop pc) with
        | .error e => .error e
        | .ok (.regExt mask aHi bHi cHi, width) =>
          if pending.isSome then .error (.truncatedWide pc)
          else checkFrom fb fuel (pc + width) (some ⟨mask, aHi, bHi, cHi⟩) envs
        | .ok (wide, width) =>
          if pending.isSome then .error (.truncatedWide pc)
          else
            match checkWide fb pc wide envs with
            | .error e => .error e
            | .ok envs' => checkFrom fb fuel (pc + width) none envs'
      | some op =>
        match checkNarrow fb pc op instr pending envs with
        | .error e => .error e
        | .ok envs' => checkFrom fb fuel (pc + 1) none envs'

/-- `check_operand_contract`. -/
def checkOperandContract (fb : FunctionBytecode) : Except BytecodeError Unit :=
  checkFrom fb fb.instrs.length 0 none []

/-! ## §4 Handlers -/

/-- Drops the still-open ranges that end at or before `start`. -/
def closeEnded (openRanges : List HandlerRange) (start : Nat) : List HandlerRange :=
  openRanges.dropWhile (fun top => top.stop ≤ start)

/-- The handler loop of `validate`; `openRanges` has the innermost range first. -/
def checkHandlers (instrs : Nat) :
    List HandlerRange → List HandlerRange → Nat → Except BytecodeError Unit
  | [], _, _ => .ok ()
  | h :: rest, openRanges, prevStart =>
    if h.stop ≤ h.start then
      .error (.invalidFunction s!"handler range [{h.start}, {h.stop}) is empty or inverted")
    else if h.start < prevStart then
      .error (.invalidFunction s!"handler starting at {h.start} is not sorted by start")
    else if instrs ≤ h.target then
      .error (.handlerTargetOutOfBounds (BitVec.ofNat 32 h.target) instrs)
    else
      let openRanges := closeEnded openRanges h.start
      match openRanges with
      | top :: _ =>
        if top.stop < h.stop then
          .error (.invalidFunction
            s!"handler [{h.start}, {h.stop}) partially overlaps [{top.start}, {top.stop}) without nesting")
        else if h.stackDepth ≤ top.stackDepth then
          .error (.invalidFunction
            s!"nested handler [{h.start}, {h.stop}) has non-increasing stack depth ({h.stackDepth} <= {top.stackDepth})")
        else checkHandlers instrs rest (h :: openRanges) h.start
      | [] => checkHandlers instrs rest [h] h.start

/-- Registers index from 0, so a frame has at least one. -/
def checkMaxRegs (fb : FunctionBytecode) : Except BytecodeError Unit :=
  if fb.maxRegs = 0 then .error .zeroMaxRegs else .ok ()

/-- `FunctionBytecode::validate`. -/
def FunctionBytecode.validate (fb : FunctionBytecode) : Except BytecodeError Unit := do
  checkMaxRegs fb
  checkHandlers fb.instrs.length fb.handlers [] 0
  checkOperandContract fb

end V12.Bytecode
