/-
V12.Bytecode.Error — `BytecodeError`, from `v12-bytecode/src/error.rs`,
with the payload of each failure the model can raise.
-/
import V12.Bytecode.Opcode

namespace V12.Bytecode

inductive BytecodeError where
  | truncatedWide (word : Nat)
  | wideHeaderNotWide
  | unknownWideDiscriminant (discriminant : BitVec 32)
  | invalidFunction (reason : String)
  | zeroMaxRegs
  | handlerTargetOutOfBounds (target : BitVec 32) (instrs : Nat)
  | unassignedOpcode (pc : BitVec 32) (byte : BitVec 8)
  | registerOutOfRange (pc : BitVec 32) (op : Opcode) (operand : String) (reg maxRegs : Nat)
  | envSlotOutOfRange (pc : BitVec 32) (op : Opcode) (depth slot envSlots : Nat)
  | constIdOutOfRange (pc : BitVec 32) (op : Opcode) (id pool : Nat)
  | branchTargetOutOfRange (pc : BitVec 32) (op : Opcode) (target instrs : Nat)
  | flagNotBoolean (pc : BitVec 32) (op : Opcode) (value : BitVec 8)
  deriving DecidableEq, Repr

end V12.Bytecode
