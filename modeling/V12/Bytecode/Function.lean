/-
V12.Bytecode.Function — `HandlerRange`, the constant pool and
`FunctionBytecode`, from `v12-bytecode/src/lib.rs`, with the fields the
validator, the peephole pass and the dispatch loop read.
-/
import V12.Bytecode.Error

namespace V12.Bytecode

/-- Protects pcs `[start, stop)`; unwinds to `target` at `stackDepth`. -/
structure HandlerRange where
  start : Nat
  stop : Nat
  target : Nat
  stackDepth : Nat
  deriving DecidableEq, Repr

/-- A constant-pool entry; `f64` holds the bits of the number. -/
inductive Const where
  | f64 (bits : BitVec 64)
  | str32 (id : BitVec 32)
  | null
  | bigIntId (id : BitVec 32)
  | bigU64 (v : BitVec 64)
  deriving DecidableEq, Repr

structure FunctionBytecode where
  maxRegs : BitVec 16
  instrs : List Instr
  consts : List Const
  handlers : List HandlerRange
  spans : List (Nat × Nat)
  deriving DecidableEq, Repr

/-- `FunctionBytecode::with_instructions`: placeholder spans, nothing else. -/
def FunctionBytecode.withInstructions (instrs : List Instr) (maxRegs : BitVec 16) :
    FunctionBytecode where
  maxRegs := maxRegs
  instrs := instrs
  consts := []
  handlers := []
  spans := List.replicate instrs.length (0, 0)

end V12.Bytecode
