/-
V12.Bytecode.Opcode — the opcode enumeration and the 32-bit instruction
word, from `v12-bytecode/src/opcode.rs`.

The discriminants are the serialized format: `Opcode.byte` is the
enum's `as u8`, `allOpcodes` is `ALL_OPCODES`, and `Opcode.fromByte`
inverts that list the way `invert_all_opcodes` builds its table.
-/
import V12.Lib.BitPack

namespace V12.Bytecode

open Lib

/-! ## §1 Opcodes -/

inductive Opcode where
  | move | loadConst | loadInt | wide | add | sub | mul | div | mod | pow | neg | bitAnd
  | bitOr | bitXor | shl | shr | uShr | bitNot | eq | ne | lt | le | gt | ge | strictEq
  | strictNe | notOp | typeOf | jump | jumpIfFalse | jumpIfTrue | loopHeader | call
  | returnOp | throwOp | getProperty | setProperty | deleteProperty | newObject
  | newArray | closure | newEnvironment | getEnvSlot | setEnvSlot | createGenerator
  | suspendYield | await | inOp | instanceOf | copyArrayRest | checkIsArray | callApply
  | copyObjectRest | arrayAppend | getGlobal | setGlobal | construct | getNewTarget
  | toNumber | mergeObject | defineAccessor | jumpIfNullish | setPrototype | getIterator
  | iteratorNext | iteratorClose | defineMethod | getGlobalLenient | genResumeMode
  | toPropertyKey | getAsyncIterator | getPrototype | popEnvironment
  | defineAccessorEnumerable | superConstruct | superConstructApply | checkThis
  | checkThisUnbound | derivedResult | checkHeritage | defineField
  deriving DecidableEq, Repr

/-- The serialized discriminant (`op as u8`). -/
def Opcode.byte : Opcode → BitVec 8
  | .move => 1 | .loadConst => 2 | .loadInt => 3 | .wide => 4 | .add => 10 | .sub => 11
  | .mul => 12 | .div => 13 | .mod => 14 | .pow => 15 | .neg => 16 | .bitAnd => 17
  | .bitOr => 18 | .bitXor => 19 | .shl => 20 | .shr => 21 | .uShr => 22 | .bitNot => 23
  | .eq => 24 | .ne => 25 | .lt => 26 | .le => 27 | .gt => 28 | .ge => 29 | .strictEq => 30
  | .strictNe => 31 | .notOp => 32 | .typeOf => 33 | .jump => 34 | .jumpIfFalse => 35
  | .jumpIfTrue => 36 | .loopHeader => 37 | .call => 38 | .returnOp => 39 | .throwOp => 40
  | .getProperty => 41 | .setProperty => 42 | .deleteProperty => 43 | .newObject => 44
  | .newArray => 45 | .closure => 46 | .newEnvironment => 47 | .getEnvSlot => 48
  | .setEnvSlot => 49 | .createGenerator => 50 | .suspendYield => 51 | .await => 52
  | .inOp => 53 | .instanceOf => 54 | .copyArrayRest => 55 | .checkIsArray => 56
  | .callApply => 57 | .copyObjectRest => 58 | .arrayAppend => 59 | .getGlobal => 60
  | .setGlobal => 61 | .construct => 62 | .getNewTarget => 63 | .toNumber => 64
  | .mergeObject => 65 | .defineAccessor => 66 | .jumpIfNullish => 67 | .setPrototype => 68
  | .getIterator => 69 | .iteratorNext => 70 | .iteratorClose => 71 | .defineMethod => 72
  | .getGlobalLenient => 73 | .genResumeMode => 74 | .toPropertyKey => 75
  | .getAsyncIterator => 76 | .getPrototype => 77 | .popEnvironment => 78
  | .defineAccessorEnumerable => 79 | .superConstruct => 80 | .superConstructApply => 81
  | .checkThis => 82 | .checkThisUnbound => 83 | .derivedResult => 84 | .checkHeritage => 85
  | .defineField => 86

/-- `ALL_OPCODES`: every assigned opcode, in ascending discriminant order. -/
def allOpcodes : List Opcode :=
  [.move, .loadConst, .loadInt, .wide, .add, .sub, .mul, .div, .mod, .pow, .neg, .bitAnd,
   .bitOr, .bitXor, .shl, .shr, .uShr, .bitNot, .eq, .ne, .lt, .le, .gt, .ge, .strictEq,
   .strictNe, .notOp, .typeOf, .jump, .jumpIfFalse, .jumpIfTrue, .loopHeader, .call, .returnOp,
   .throwOp, .getProperty, .setProperty, .deleteProperty, .newObject, .newArray, .closure,
   .newEnvironment, .getEnvSlot, .setEnvSlot, .createGenerator, .suspendYield, .await, .inOp,
   .instanceOf, .copyArrayRest, .checkIsArray, .callApply, .copyObjectRest, .arrayAppend,
   .getGlobal, .setGlobal, .construct, .getNewTarget, .toNumber, .mergeObject, .defineAccessor,
   .jumpIfNullish, .setPrototype, .getIterator, .iteratorNext, .iteratorClose, .defineMethod,
   .getGlobalLenient, .genResumeMode, .toPropertyKey, .getAsyncIterator, .getPrototype,
   .popEnvironment, .defineAccessorEnumerable, .superConstruct, .superConstructApply,
   .checkThis, .checkThisUnbound, .derivedResult, .checkHeritage, .defineField]

/-- `Opcode::from_byte`: the opcode listed at that byte, `none` at an
unassigned discriminant. -/
def Opcode.fromByte (byte : BitVec 8) : Option Opcode :=
  allOpcodes.find? (fun op => op.byte = byte)

@[simp] theorem Opcode.fromByte_byte (op : Opcode) : Opcode.fromByte op.byte = some op := by
  cases op <;> decide

theorem Opcode.byte_of_fromByte {byte : BitVec 8} {op : Opcode}
    (h : Opcode.fromByte byte = some op) : op.byte = byte := by
  have := List.find?_some h
  simpa using this

/-! ## §2 The instruction word -/

/-- `MAX_IMM24`: the low 24 bits. -/
def maxImm24 : BitVec 32 := 0x00FFFFFF

/-- `OPCODE_MASK`: the opcode byte. -/
def opcodeMask : BitVec 32 := 0xFF000000

/-- `LOW_16_MASK`: the `b`/`c` slots. -/
def low16Mask : BitVec 32 := 0x0000FFFF

/-- One fixed-width instruction word: bits 31..24 opcode, then `a`, `b`, `c`. -/
structure Instr where
  word : BitVec 32
  deriving DecidableEq, Repr

namespace Instr

def new (op : Opcode) (a b c : BitVec 8) : Instr :=
  ⟨place 24 32 op.byte ||| place 16 32 a ||| place 8 32 b ||| place 0 32 c⟩

/-- The 16-bit immediate is split big-endian across `b` and `c`. -/
def newImm16 (op : Opcode) (a : BitVec 8) (imm : BitVec 16) : Instr :=
  new op a (field 8 8 imm) (field 0 8 imm)

def newImm24 (op : Opcode) (imm : BitVec 32) : Instr :=
  ⟨place 24 32 op.byte ||| (imm &&& maxImm24)⟩

def op (i : Instr) : Option Opcode := Opcode.fromByte (field 24 8 i.word)
def a (i : Instr) : BitVec 8 := field 16 8 i.word
def b (i : Instr) : BitVec 8 := field 8 8 i.word
def c (i : Instr) : BitVec 8 := field 0 8 i.word

def imm16 (i : Instr) : BitVec 16 := place 8 16 i.b ||| place 0 16 i.c
def imm24 (i : Instr) : BitVec 32 := i.word &&& maxImm24

/-- Rewrites the 16-bit immediate in place (label backpatching). -/
def setImm16 (i : Instr) (imm : BitVec 16) : Instr :=
  ⟨(i.word &&& ~~~low16Mask) ||| place 0 32 imm⟩

/-- Rewrites the 24-bit immediate in place (label backpatching). -/
def setImm24 (i : Instr) (imm : BitVec 32) : Instr :=
  ⟨(i.word &&& opcodeMask) ||| (imm &&& maxImm24)⟩

/-! ### Slots read back -/

@[simp] theorem op_new (op : Opcode) (a b c : BitVec 8) : (new op a b c).op = some op := by
  simp [Instr.op, new, field_or, field_place_self, field_place_disjoint]

@[simp] theorem a_new (op : Opcode) (a b c : BitVec 8) : (new op a b c).a = a := by
  simp [Instr.a, new, field_or, field_place_self, field_place_disjoint]

@[simp] theorem b_new (op : Opcode) (a b c : BitVec 8) : (new op a b c).b = b := by
  simp [Instr.b, new, field_or, field_place_self, field_place_disjoint]

@[simp] theorem c_new (op : Opcode) (a b c : BitVec 8) : (new op a b c).c = c := by
  simp [Instr.c, new, field_or, field_place_self, field_place_disjoint]

theorem imm16_eq_field (i : Instr) : i.imm16 = field 0 16 i.word := by
  apply BitVec.eq_of_getLsbD_eq
  intro j hj
  simp only [imm16, b, c, BitVec.getLsbD_or, getLsbD_place, getLsbD_field]
  grind

theorem imm24_toNat_lt (i : Instr) : i.imm24.toNat < 2 ^ 24 := by
  have h : i.imm24.toNat ≤ maxImm24.toNat := by
    simp only [imm24, BitVec.toNat_and]
    exact Nat.and_le_right
  exact Nat.lt_of_le_of_lt h (by decide)

/-! ### Patching an immediate leaves the rest of the word alone -/

theorem low16Mask_getLsbD (i : Nat) : low16Mask.getLsbD i = decide (i < 16) := by
  simp only [low16Mask, show (0x0000FFFF : BitVec 32) = BitVec.ofNat 32 (2 ^ 16 - 1) from rfl,
    BitVec.getLsbD_ofNat, Nat.testBit_two_pow_sub_one]
  grind

theorem maxImm24_getLsbD (i : Nat) : maxImm24.getLsbD i = decide (i < 24) := by
  simp only [maxImm24, show (0x00FFFFFF : BitVec 32) = BitVec.ofNat 32 (2 ^ 24 - 1) from rfl,
    BitVec.getLsbD_ofNat, Nat.testBit_two_pow_sub_one]
  grind

theorem opcodeMask_eq : opcodeMask = ~~~maxImm24 := by decide

theorem opcodeMask_getLsbD (i : Nat) :
    opcodeMask.getLsbD i = (decide (i < 32) && !decide (i < 24)) := by
  rw [opcodeMask_eq, BitVec.getLsbD_not, maxImm24_getLsbD]

@[simp] theorem op_setImm16 (i : Instr) (imm : BitVec 16) : (i.setImm16 imm).op = i.op := by
  have h : field 24 8 (i.setImm16 imm).word = field 24 8 i.word := by
    rw [setImm16, field_or, field_place_disjoint imm (by omega), BitVec.or_zero]
    apply field_and_of_ones
    intro j hj
    simp [low16Mask_getLsbD]
    omega
  simp [op, h]

@[simp] theorem a_setImm16 (i : Instr) (imm : BitVec 16) : (i.setImm16 imm).a = i.a := by
  rw [a, a, setImm16, field_or, field_place_disjoint imm (by omega), BitVec.or_zero]
  apply field_and_of_ones
  intro j hj
  simp [low16Mask_getLsbD]
  omega

@[simp] theorem imm16_setImm16 (i : Instr) (imm : BitVec 16) : (i.setImm16 imm).imm16 = imm := by
  rw [imm16_eq_field, setImm16, field_or, field_place_self imm (by omega)]
  rw [field_and_of_zeros, BitVec.zero_or]
  intro j hj
  simp [low16Mask_getLsbD]
  omega

@[simp] theorem op_setImm24 (i : Instr) (imm : BitVec 32) : (i.setImm24 imm).op = i.op := by
  have h : field 24 8 (i.setImm24 imm).word = field 24 8 i.word := by
    rw [setImm24, field_or, field_and_of_zeros imm, BitVec.or_zero]
    · apply field_and_of_ones
      intro j hj
      simp [opcodeMask_getLsbD]
      omega
    · intro j hj
      simp [maxImm24_getLsbD]
  simp [op, h]

@[simp] theorem imm24_setImm24 (i : Instr) (imm : BitVec 32) :
    (i.setImm24 imm).imm24 = imm &&& maxImm24 := by
  apply BitVec.eq_of_getLsbD_eq
  intro j hj
  simp only [imm24, setImm24, BitVec.getLsbD_and, BitVec.getLsbD_or, opcodeMask_getLsbD,
    maxImm24_getLsbD]
  grind

end Instr

end V12.Bytecode
