/-
V12.Bytecode.OpSpec — the operand contract table of
`v12-bytecode/src/opspec.rs`: what each slot of each opcode holds, and
which roles are registers.
-/
import V12.Bytecode.Wide

namespace V12.Bytecode

/-- What one operand slot holds. -/
inductive Role where
  | unused | dst | src | inOut | cond | obj | key | val | callee | count | argsArr | elemBase
  | excl | pair | depth | slot | fnIndex | start | flag | constId | nameId | imm8 | imm16
  | imm24 | mask | disc
  deriving DecidableEq, Repr

/-- `Role::name`, for diagnostics. -/
def Role.name : Role → String
  | .unused => "unused"
  | .dst => "dst"
  | .src => "src"
  | .inOut => "in/out"
  | .cond => "condition"
  | .obj => "object"
  | .key => "key"
  | .val => "value"
  | .callee => "callee"
  | .count => "count"
  | .argsArr => "argument array"
  | .elemBase => "element base"
  | .excl => "excluded key"
  | .pair => "accessor pair base"
  | .depth => "environment depth"
  | .slot => "environment slot"
  | .fnIndex => "function index"
  | .start => "start index"
  | .flag => "flag"
  | .constId => "constant id"
  | .nameId => "name id"
  | .imm8 => "immediate"
  | .imm16 => "jump target (high)"
  | .imm24 => "jump target"
  | .mask => "register-extension mask"
  | .disc => "wide discriminant"

/-- The roles of `slot_is_register`. -/
def Role.isRegister : Role → Bool
  | .dst | .src | .inOut | .cond | .obj | .key | .val | .callee | .elemBase | .argsArr | .excl
  | .pair => true
  | _ => false

/-- The operand contract of one opcode. -/
structure OpSpec where
  a : Role
  b : Role
  c : Role
  deriving DecidableEq, Repr

namespace OpSpec

/-- `role_at_index`; every index past the second slot is slot `c`. -/
def roleAt (s : OpSpec) : Nat → Role
  | 0 => s.a
  | 1 => s.b
  | _ => s.c

def indexIsRegister (s : OpSpec) (index : Nat) : Bool := (s.roleAt index).isRegister

/-- `role_slot`: the first slot holding `role`. -/
def roleSlot (s : OpSpec) (role : Role) : Option Nat :=
  [0, 1, 2].find? (fun i => s.roleAt i = role)

end OpSpec

/-- `build_specs`: the table row of each assigned opcode. -/
def spec : Opcode → OpSpec
  | .move => ⟨.dst, .src, .unused⟩
  | .loadConst => ⟨.dst, .constId, .constId⟩
  | .loadInt => ⟨.dst, .unused, .imm8⟩
  | .wide => ⟨.mask, .unused, .disc⟩
  | .add | .sub | .mul | .div | .mod | .pow | .bitAnd | .bitOr | .bitXor | .shl | .shr | .uShr
  | .eq | .ne | .lt | .le | .gt | .ge | .strictEq | .strictNe => ⟨.dst, .src, .src⟩
  | .neg | .bitNot | .notOp | .typeOf | .toNumber | .toPropertyKey => ⟨.dst, .src, .unused⟩
  | .jump => ⟨.imm24, .imm24, .imm24⟩
  | .jumpIfFalse | .jumpIfTrue | .jumpIfNullish => ⟨.cond, .imm16, .imm16⟩
  | .loopHeader => ⟨.unused, .unused, .unused⟩
  | .call | .construct => ⟨.dst, .callee, .count⟩
  | .returnOp | .throwOp => ⟨.src, .unused, .unused⟩
  | .getProperty => ⟨.dst, .obj, .key⟩
  | .setProperty => ⟨.obj, .key, .val⟩
  | .deleteProperty => ⟨.dst, .obj, .key⟩
  | .defineMethod => ⟨.obj, .key, .val⟩
  | .defineAccessor | .defineAccessorEnumerable => ⟨.obj, .key, .pair⟩
  | .setPrototype => ⟨.unused, .obj, .src⟩
  | .getPrototype => ⟨.dst, .src, .unused⟩
  | .superConstruct => ⟨.dst, .callee, .count⟩
  | .superConstructApply => ⟨.dst, .callee, .argsArr⟩
  | .checkThis | .checkThisUnbound => ⟨.src, .unused, .unused⟩
  | .derivedResult => ⟨.dst, .src, .src⟩
  | .checkHeritage => ⟨.dst, .src, .unused⟩
  | .defineField => ⟨.obj, .key, .val⟩
  | .newObject => ⟨.dst, .unused, .unused⟩
  | .newArray => ⟨.dst, .elemBase, .count⟩
  | .closure => ⟨.dst, .fnIndex, .unused⟩
  | .newEnvironment => ⟨.unused, .slot, .unused⟩
  | .popEnvironment => ⟨.unused, .unused, .unused⟩
  | .getEnvSlot => ⟨.dst, .depth, .slot⟩
  | .setEnvSlot => ⟨.depth, .slot, .src⟩
  | .createGenerator => ⟨.dst, .fnIndex, .unused⟩
  | .suspendYield => ⟨.inOut, .unused, .unused⟩
  | .await => ⟨.dst, .src, .flag⟩
  | .genResumeMode => ⟨.dst, .inOut, .unused⟩
  | .inOp => ⟨.dst, .key, .obj⟩
  | .instanceOf => ⟨.dst, .src, .src⟩
  | .copyArrayRest => ⟨.dst, .src, .start⟩
  | .checkIsArray => ⟨.src, .unused, .unused⟩
  | .callApply => ⟨.dst, .callee, .argsArr⟩
  | .copyObjectRest => ⟨.dst, .src, .excl⟩
  | .arrayAppend => ⟨.dst, .src, .unused⟩
  | .mergeObject => ⟨.unused, .dst, .src⟩
  | .getIterator | .getAsyncIterator | .iteratorNext => ⟨.dst, .src, .unused⟩
  | .iteratorClose => ⟨.src, .flag, .unused⟩
  | .getGlobal | .getGlobalLenient => ⟨.dst, .nameId, .nameId⟩
  | .setGlobal => ⟨.src, .nameId, .nameId⟩
  | .getNewTarget => ⟨.dst, .unused, .unused⟩

end V12.Bytecode
