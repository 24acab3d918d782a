/-
V12.Interp.Decode — instruction fetch of the dispatch loop, from
`v12-interp/src/execute.rs`.

`decodeInstr` is the source's function of that name with its panics as
`none`; `dispatch` adds the second decode of the `Wide` arm. `accesses` lists
the frame registers an arm of the loop reads or writes, and `successors` the
pcs it can continue at; a call header's window is left out.
-/
import V12.Bytecode.Validate

namespace V12.Interp

open V12.Bytecode

/-! ## §1 Decoding -/

/-- A decoded narrow instruction: merged operands, total width, and the word
whose immediates apply. -/
structure Decoded where
  op : Opcode
  a : BitVec 16
  b : BitVec 16
  c : BitVec 16
  width : Nat
  narrow : Instr
  deriving DecidableEq, Repr

/-- `decode_instr`; `none` where the source panics. -/
def decodeInstr (instrs : List Instr) (pc : Nat) : Option Decoded :=
  match instrs[pc]? with
  | none => none
  | some instr =>
    match instr.op with
    | none => none
    | some .wide =>
      if instr.c.setWidth 32 = WideOp.discRegExt then
        match WideOp.tryDecode (instrs.drop pc) with
        | .ok (.regExt mask aHi bHi cHi, _) =>
          match instrs[pc + 2]? with
          | none => none
          | some narrow =>
            match narrow.op with
            | none => none
            | some op =>
              let slot := mergeSlot (some ⟨mask, aHi, bHi, cHi⟩) narrow
              some ⟨op, slot 0, slot 1, slot 2, 3, narrow⟩
        | _ => none
      else some ⟨.wide, 0, 0, 0, 1, instr⟩
    | some op =>
      let slot := mergeSlot none instr
      some ⟨op, slot 0, slot 1, slot 2, 1, instr⟩

/-- What the dispatch loop executes: a narrow instruction, or a wide
operation with its width. -/
inductive Dispatched where
  | narrow (d : Decoded)
  | wide (op : WideOp) (width : Nat)
  deriving DecidableEq, Repr

/-- The instruction dispatched at `pc`. The `Wide` arm decodes the payload
at `pc` again and panics on a bare `RegExt`. -/
def dispatch (instrs : List Instr) (pc : Nat) : Option Dispatched :=
  match decodeInstr instrs pc with
  | none => none
  | some d =>
    match d.op with
    | .wide =>
      match WideOp.tryDecode (instrs.drop pc) with
      | .ok (.regExt .., _) => none
      | .ok (wide, width) => some (.wide wide width)
      | .error _ => none
    | _ => some (.narrow d)

def Dispatched.width : Dispatched → Nat
  | .narrow d => d.width
  | .wide _ width => width

/-! ## §2 Register accesses -/

def window (base : BitVec 16) (count : Nat) : List Nat := List.range' base.toNat count

/-- Registers the arm of a narrow instruction reads or writes. `generator`
says whether the frame belongs to a generator, which `CreateGenerator`
branches on. -/
def narrowAccesses (generator : Bool) (d : Decoded) : List Nat :=
  let a := d.a.toNat
  let b := d.b.toNat
  let c := d.c.toNat
  match d.op with
  | .wide => []
  | .jump | .loopHeader | .newEnvironment | .popEnvironment => []
  | .loadInt | .loadConst | .jumpIfFalse | .jumpIfTrue | .jumpIfNullish | .checkThis
  | .checkThisUnbound | .getNewTarget | .returnOp | .throwOp | .newObject | .closure
  | .getEnvSlot | .iteratorClose | .checkIsArray | .getGlobal | .getGlobalLenient | .setGlobal
  | .suspendYield => [a]
  | .move | .neg | .bitNot | .notOp | .typeOf | .toNumber | .toPropertyKey | .checkHeritage
  | .getPrototype | .getIterator | .getAsyncIterator | .iteratorNext | .copyArrayRest
  | .arrayAppend | .await => [a, b]
  -- the callee register; the rest of the header is the call's own window
  | .call | .construct | .superConstruct => [a, b]
  | .add | .sub | .mul | .div | .mod | .pow | .bitAnd | .bitOr | .bitXor | .shl | .shr | .uShr
  | .eq | .ne | .lt | .le | .gt | .ge | .strictEq | .strictNe | .inOp | .instanceOf
  | .superConstructApply | .callApply | .derivedResult | .defineField | .getProperty
  | .setProperty | .defineMethod | .deleteProperty => [a, b, c]
  | .setEnvSlot => [c]
  | .setPrototype | .mergeObject => [b, c]
  | .newArray => a :: window d.b c
  | .defineAccessor | .defineAccessorEnumerable => a :: b :: window d.c 2
  -- register 0 stands for "no excluded key" / "no yield register"
  | .copyObjectRest => if c = 0 then [a, b] else [a, b, c]
  | .genResumeMode => if b = 0 then [a] else [a, b]
  -- without a generator on the frame, `b` is read as a register
  | .createGenerator => if generator then [a] else [a, b]

/-- Registers the arm of a wide operation reads or writes. -/
def wideAccesses : WideOp → List Nat
  | .loadConstW dst _ | .loadIntW dst _ | .getEnvSlotW dst _ _ | .closureW dst _
  | .newPrivateNameW dst _ _ => [dst.toNat]
  | .setEnvSlotW src _ _ => [src.toNat]
  | .callW dst func _ | .constructW dst func _ => [dst.toNat, func.toNat]
  | .copyObjectRestW dst src exclBase exclCount =>
    dst.toNat :: src.toNat :: window exclBase exclCount.toNat
  | .copyArrayRestW dst src _ => [dst.toNat, src.toNat]
  | .regExt .. | .newEnvironmentW .. => []
  | .setPrivateMethodW name value _ => [name.toNat, value.toNat]
  | .definePrivateW obj name value => [obj.toNat, name.toNat, value.toNat]
  | .hasPrivateW dst obj name => [dst.toNat, obj.toNat, name.toNat]
  | .setPropertyR base key value receiver =>
    [base.toNat, key.toNat, value.toNat, receiver.toNat]
  | .getSuperW dst base key receiver => [dst.toNat, base.toNat, key.toNat, receiver.toNat]

def Dispatched.accesses (generator : Bool) : Dispatched → List Nat
  | .narrow d => narrowAccesses generator d
  | .wide op _ => wideAccesses op

/-! ## §3 Control flow -/

/-- The pcs the loop can continue at after the instruction at `pc`. A call
that pushes a frame resumes at the fall-through (`decodeParkedCall`), and
so does a suspended generator; `Return` and `Throw` leave. -/
def successors (pc : Nat) : Dispatched → List Nat
  | .narrow d =>
    match d.op with
    | .jump => [d.narrow.imm24.toNat]
    | .jumpIfFalse | .jumpIfTrue | .jumpIfNullish => [d.narrow.imm16.toNat, pc + d.width]
    | .returnOp | .throwOp => []
    | _ => [pc + d.width]
  | .wide _ width => [pc + width]

/-- `parks_construct`. -/
def parksConstruct (op : Option Opcode) : Bool :=
  op = some .construct || op = some .superConstruct || op = some .superConstructApply

/-- `decode_parked_call`: whether the call parked at `pc` constructs, its
destination, and its width. -/
def decodeParkedCall (instrs : List Instr) (pc : Nat) :
    Except BytecodeError (Bool × BitVec 16 × Nat) :=
  match instrs[pc]? with
  | none => .error (.truncatedWide pc)
  | some instr =>
    match instr.op with
    | some .wide =>
      match WideOp.tryDecode (instrs.drop pc) with
      | .ok (.callW dst _ _, width) => .ok (false, dst, width)
      | .ok (.constructW dst _ _, width) => .ok (true, dst, width)
      | .ok (.regExt mask aHi bHi cHi, _) =>
        match instrs[pc + 2]? with
        | none => .error (.invalidFunction "RegExt prefix without its narrow instruction")
        | some narrow =>
          .ok (parksConstruct narrow.op, mergeSlot (some ⟨mask, aHi, bHi, cHi⟩) narrow 0, 3)
      | _ => .error (.invalidFunction "call parked on malformed wide header")
    | op => .ok (parksConstruct op, mergeSlot none instr 0, 1)

/-- The pcs an execution of `fb` can be at: it starts at pc 0, an exception
enters at a handler target, and every step goes to a successor. -/
inductive Reaches (fb : FunctionBytecode) : Nat → Prop where
  | entry : Reaches fb 0
  | handler {h : HandlerRange} (mem : h ∈ fb.handlers) : Reaches fb h.target
  | step {pc next : Nat} {d : Dispatched} (reached : Reaches fb pc)
      (decoded : dispatch fb.instrs pc = some d) (succ : next ∈ successors pc d) : Reaches fb next

/-! ## §4 Instruction starts -/

/-- The instruction starts from `pc`, stepping over whole instructions: a
prefix and its narrow instruction are one. -/
def opStartsFrom (instrs : List Instr) : Nat → Nat → List Nat
  | 0, _ => []
  | fuel + 1, pc =>
    if pc < instrs.length then
      match dispatch instrs pc with
      | some d => pc :: opStartsFrom instrs fuel (pc + d.width)
      | none => [pc]
    else []

def opStarts (instrs : List Instr) : List Nat := opStartsFrom instrs instrs.length 0

/-- First word of an instruction, or the end of the stream, where the loop
completes the frame with `undefined`. -/
def LandsOn (instrs : List Instr) (pc : Nat) : Prop := pc ∈ opStarts instrs ∨ pc = instrs.length

instance (instrs : List Instr) (pc : Nat) : Decidable (LandsOn instrs pc) :=
  inferInstanceAs (Decidable (_ ∨ _))

end V12.Interp
