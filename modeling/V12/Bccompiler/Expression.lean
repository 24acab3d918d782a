/-
V12.Bccompiler.Expression — the code of expressions, from `FnCtx` in
`v12-bccompiler/src/model.rs` and `v12-bccompiler/src/expr.rs`, and its run.

An emission returns the register of the value, or fails as the compilation
does. Every branch goes forward, so a run is one pass over the code: a taken
branch skips to where its label is bound. What an operation does beyond the
registers is a `Machine`.
-/
import V12.Heap.Object
import V12.Bytecode.Builder

namespace V12.Expression

open V12.Heap (JsValue)
open V12.Bytecode (BranchOp Opcode)

/-! ## §1 Code and its run -/

/-- The operations on registers. -/
inductive Op where
  | str (text : String)
  | getGlobal (name : String)
  | setGlobal (name : String)
  | getSuper
  | setPropertyR
  | call
  | opcode (op : Opcode)
  deriving DecidableEq

/-- What the interpreter does outside the frame's registers. -/
structure Machine (W : Type) where
  envRead : W → Nat → Nat → JsValue
  envWrite : W → Nat → Nat → JsValue → W
  /-- `to_boolean`. -/
  toBoolean : W → JsValue → Bool
  apply : Op → List JsValue → W → Option (JsValue × W)

structure Frame (W : Type) where
  regs : Nat → JsValue
  world : W

def Frame.write {W : Type} (f : Frame W) (dst : Nat) (v : JsValue) : Frame W :=
  { f with regs := Function.update f.regs dst v }

/-- An emitted instruction, or the place where a label is bound. -/
inductive Item (W : Type) where
  | load (dst : Nat) (v : JsValue)
  | move (dst src : Nat)
  | getEnv (dst depth slot : Nat)
  | setEnv (depth slot src : Nat)
  | apply (op : Op) (dst : Option Nat) (args : List Nat)
  | throws (src : Nat)
  | branch (op : BranchOp) (cond target : Nat)
  | bind (label : Nat)
  | other (run : Frame W → Option (Frame W))

/-- Between two instructions: going on, skipping to a label, or gone from the code
by a throw or a return. -/
inductive Mode (W : Type) where
  | running (f : Frame W)
  | seeking (label : Nat) (f : Frame W)
  | left

def isNullish : JsValue → Bool
  | .undefined | .null => true
  | _ => false

section Run

variable {W : Type} (M : Machine W)

def taken (op : BranchOp) (w : W) (v : JsValue) : Bool :=
  match op with
  | .jump => true
  | .jumpIfTrue => M.toBoolean w v
  | .jumpIfFalse => !M.toBoolean w v
  | .jumpIfNullish => isNullish v

def Item.run (f : Frame W) : Item W → Mode W
  | .load dst v => .running (f.write dst v)
  | .move dst src => .running (f.write dst (f.regs src))
  | .getEnv dst depth slot => .running (f.write dst (M.envRead f.world depth slot))
  | .setEnv depth slot src =>
    .running { f with world := M.envWrite f.world depth slot (f.regs src) }
  | .apply op dst args =>
    match M.apply op (args.map f.regs) f.world with
    | none => .left
    | some (v, w) =>
      match dst with
      | none => .running { f with world := w }
      | some d => .running ({ f with world := w }.write d v)
  | .throws _ => .left
  | .branch op cond target =>
    if taken M op f.world (f.regs cond) then .seeking target f else .running f
  | .bind _ => .running f
  | .other run =>
    match run f with
    | none => .left
    | some f' => .running f'

/-- One item in a mode: what is skipped is not run. -/
def Item.exec (mode : Mode W) (item : Item W) : Mode W :=
  match mode with
  | .running f => item.run M f
  | .seeking label f =>
    match item with
    | .bind l => if l = label then .running f else .seeking label f
    | _ => .seeking label f
  | .left => .left

def exec (code : List (Item W)) (mode : Mode W) : Mode W := code.foldl (Item.exec M) mode

/-- The frame at the end of the code, when the code runs to its end. -/
def completes (code : List (Item W)) (f : Frame W) : Option (Frame W) :=
  match exec M code (.running f) with
  | .running f' => some f'
  | .seeking _ _ | .left => none

end Run

/-! ## §2 The compilation context -/

/-- `VarAccess`. -/
inductive VarAccess where
  | reg (r : Nat)
  | env (depth slot : Nat)
  | global (name : String)
  deriving DecidableEq

/-- Where `super_expr` finds the base. -/
inductive SuperHome where
  | objectMethod
  | classHome (depth slot : Nat)

/-- What the planning passes say about the unit at the place compiled; symbols
are numbers. Registers of variables lie below `localsEnd`. -/
structure Plans where
  localsEnd : Nat
  isStrict : Bool
  /-- `access_in_scope`. -/
  access : Nat → VarAccess
  access_reg : ∀ sym r, access sym = .reg r → r < localsEnd
  symbolName : Nat → String
  /-- The dead-zone flag of a binding, unless its initialization dominates. -/
  tdzFlag : Nat → Option VarAccess
  /-- No such binding aliases the global object. -/
  tdzFlag_local : ∀ sym name, tdzFlag sym ≠ some (.global name)
  constBinding : Nat → Bool
  /-- Where `this` is threaded through the environment. -/
  thisSlot : Option (Nat × Nat)
  thisIsDerived : Bool
  superHome : Option SuperHome
  /-- The environment slot of a Private Name in scope. -/
  privateSlot : String → Option (Nat × Nat)
  /-- The registers of the enclosing `with` objects, the innermost last. -/
  withObjs : List Nat

/-- The counters of `FnCtx`; temporaries start above the reserved register. -/
structure FnCtx (P : Plans) where
  tempTop : Nat
  labels : Nat
  above : P.localsEnd < tempTop

/-- `MAX_REGS`. -/
def maxRegs : Nat := 65535

/-- `REG_THIS`. -/
def regThis : Nat := 0

/-- An emission: a result, the counters after it and the code appended. -/
def Emit (P : Plans) (W α : Type) : Type := FnCtx P → Option (α × FnCtx P × List (Item W))

section Emissions

variable {P : Plans} {W : Type}

instance : Monad (Emit P W) where
  pure a := fun cx => some (a, cx, [])
  bind m k := fun cx =>
    match m cx with
    | none => none
    | some (a, cx₁, code₁) =>
      match k a cx₁ with
      | none => none
      | some (b, cx₂, code₂) => some (b, cx₂, code₁ ++ code₂)

/-- `Err`. -/
def Emit.err {α : Type} : Emit P W α := fun _ => none

def emit (item : Item W) : Emit P W Unit := fun cx => some ((), cx, [item])

def newTemps (n : Nat) : Emit P W Nat := fun cx =>
  if cx.tempTop < maxRegs ∧ cx.tempTop + n ≤ maxRegs then
    some (cx.tempTop,
      ⟨cx.tempTop + n, cx.labels, Nat.lt_of_lt_of_le cx.above (Nat.le_add_right _ _)⟩, [])
  else none

def newTemp : Emit P W Nat := newTemps 1

def label : Emit P W Nat := fun cx => some (cx.labels, ⟨cx.tempTop, cx.labels + 1, cx.above⟩, [])

/-- `load_str` into a register of its own. -/
def loadStrKey (text : String) : Emit P W Nat := do
  let key ← newTemp
  emit (.apply (.str text) (some key) [])
  pure key

/-! ## §3 Variables -/

def readAccess (access : VarAccess) (dst : Nat) : Emit P W Unit :=
  match access with
  | .reg r => emit (.move dst r)
  | .env depth slot => emit (.getEnv dst depth slot)
  | .global name => emit (.apply (.getGlobal name) (some dst) [])

def storeAccess (access : VarAccess) (src : Nat) : Emit P W Unit :=
  match access with
  | .reg r => if r = src then pure () else emit (.move r src)
  | .env depth slot => emit (.setEnv depth slot src)
  | .global name => emit (.apply (.setGlobal name) none [src])

/-- `emit_tdz_throw`: a `ReferenceError` made by a call. -/
def emitTdzThrow (name : String) : Emit P W Unit := do
  let block ← newTemps 3
  emit (.apply (.getGlobal "ReferenceError") (some block) [])
  emit (.move (block + 1) P.localsEnd)
  emit (.apply (.str ("Cannot access '" ++ name ++ "' before initialization")) (some (block + 2)) [])
  let err ← newTemp
  emit (.apply .call (some err) [block, block + 1, block + 2])
  emit (.throws err)

def tdzTest (sym : Nat) : Emit P W (Option Nat) :=
  match P.tdzFlag sym with
  | none => pure none
  | some access => do
    let flag ← newTemp
    readAccess access flag
    let uninit ← label
    emit (.branch .jumpIfNullish flag uninit)
    pure (some uninit)

def tdzGuardEnd (sym uninit : Nat) : Emit P W Unit := do
  let cont ← label
  emit (.branch .jump 0 cont)
  emit (.bind uninit)
  emitTdzThrow (P.symbolName sym)
  emit (.bind cont)

/-- Either half of a reference under its dead-zone test. -/
def guarded (sym : Nat) (reference : Emit P W Unit) : Emit P W Unit := do
  match ← tdzTest sym with
  | none => reference
  | some uninit =>
    reference
    tdzGuardEnd sym uninit

def readBindingInto (sym dst : Nat) : Emit P W Unit := guarded sym (readAccess (P.access sym) dst)

def storeBindingReassign (sym src : Nat) : Emit P W Unit :=
  guarded sym (storeAccess (P.access sym) src)

/-- One turn of `emit_with_probe` for a read: an `In` test of one `with` object; a hit
reads there and goes to the end. -/
def probeWith (key dst done obj : Nat) : Emit P W Unit := do
  let hit ← newTemp
  emit (.apply (.opcode .inOp) (some hit) [key, obj])
  let miss ← label
  emit (.branch .jumpIfFalse hit miss)
  emit (.apply (.opcode .getProperty) (some dst) [obj, key])
  emit (.branch .jump 0 done)
  emit (.bind miss)

/-- `emit_with_probe` for a read, the innermost object first; no code outside `with`. -/
def emitWithProbe (name : String) (dst : Nat) : Emit P W (Option Nat) := do
  if P.withObjs.isEmpty then pure none
  else
    let key ← loadStrKey name
    let done ← label
    P.withObjs.reverse.forM (probeWith key dst done)
    pure (some done)

/-- An identifier reference, with its symbol when it resolves to one. -/
structure Ident where
  name : String
  symbol : Option Nat

def readIdentifierStatic (id : Ident) (dst : Nat) : Emit P W Unit :=
  match id.symbol with
  | some sym => readBindingInto sym dst
  | none =>
    if id.name = "undefined" then emit (.load dst .undefined)
    else if id.name = "NaN" then emit (.load dst (.double 0x7FF8000000000000))
    else if id.name = "Infinity" then emit (.load dst (.double 0x7FF0000000000000))
    else emit (.apply (.getGlobal id.name) (some dst) [])

/-- Binds the label of a probe, when there is one. -/
def bindProbe : Option Nat → Emit P W Unit
  | none => pure ()
  | some done => emit (.bind done)

def readIdentifier (id : Ident) : Emit P W Nat := do
  let dst ← newTemp
  let done ← emitWithProbe id.name dst
  readIdentifierStatic id dst
  bindProbe done
  pure dst

/-! ## §4 References -/

/-- The load of `read_this_raw`. -/
def thisItem (P : Plans) (dst : Nat) : Item W :=
  match P.thisSlot with
  | some (depth, slot) => .getEnv dst depth slot
  | none => .move dst regThis

/-- The test of a derived constructor's `this`. -/
def emitCheckThis (dst : Nat) : Emit P W Unit :=
  if P.thisIsDerived then emit (.apply (.opcode .checkThis) none [dst]) else pure ()

def readThis : Emit P W Nat := do
  let dst ← newTemp
  emit (thisItem P dst)
  emitCheckThis dst
  pure dst

def superExpr : Emit P W Nat := do
  match P.superHome with
  | none => Emit.err
  | some .objectMethod =>
    let this ← readThis
    let base ← newTemp
    emit (.apply (.opcode .getPrototype) (some base) [this])
    pure base
  | some (.classHome depth slot) =>
    let home ← newTemp
    emit (.getEnv home depth slot)
    let base ← newTemp
    emit (.apply (.opcode .getPrototype) (some base) [home])
    pure base

def loadPrivateName (name : String) : Emit P W Nat := do
  match P.privateSlot name with
  | none => Emit.err
  | some (depth, slot) =>
    let dst ← newTemp
    emit (.getEnv dst depth slot)
    pure dst

/-- `emit_member_load`. -/
def emitMemberLoad (dst obj key : Nat) (isSuper : Bool) : Emit P W Unit := do
  if isSuper then
    let receiver ← readThis
    emit (.apply .getSuper (some dst) [obj, key, receiver])
  else emit (.apply (.opcode .getProperty) (some dst) [obj, key])

/-- `emit_member_store`. -/
def emitMemberStore (obj key value : Nat) (isSuper : Bool) : Emit P W Unit := do
  if isSuper then
    let receiver ← readThis
    emit (.apply .setPropertyR none [obj, key, value, receiver])
  else emit (.apply (.opcode .setProperty) none [obj, key, value])

def checkAssignTarget (id : Ident) : Emit P W Unit :=
  if P.isStrict && (id.name == "eval" || id.name == "arguments") then Emit.err
  else if P.isStrict && id.symbol.any P.constBinding then Emit.err
  else pure ()

/-- A resolved assignment target. -/
inductive Ref where
  | id (sym : Nat)
  | global (name : String)
  | member (obj key : Nat) (isSuper : Bool)

def identRef (id : Ident) : Ref :=
  match id.symbol with
  | some sym => .id sym
  | none => .global id.name

def Ref.readInto (ref : Ref) (cur : Nat) : Emit P W Unit :=
  match ref with
  | .id sym => readBindingInto sym cur
  | .global name => emit (.apply (.getGlobal name) (some cur) [])
  | .member obj key isSuper => emitMemberLoad cur obj key isSuper

/-- Stores to a target whose binding was read before. -/
def Ref.store (ref : Ref) (value : Nat) : Emit P W Unit :=
  match ref with
  | .id sym => storeAccess (P.access sym) value
  | .global name => emit (.apply (.setGlobal name) none [value])
  | .member obj key isSuper => emitMemberStore obj key value isSuper

/-! ## §5 Logical operators -/

/-- `&&`, `||` and `??`, also as the assignments `&&=`, `||=` and `??=`. -/
inductive LogicalOp where
  | and | or | coalesce
  deriving DecidableEq

/-- `nullish_cmp`. -/
def nullishCmp (v : Nat) : Emit P W Nat := do
  let null ← newTemp
  emit (.load null .null)
  let cmp ← newTemp
  emit (.apply (.opcode .eq) (some cmp) [v, null])
  pure cmp

/-- The jump past the right operand when the left one is the value. -/
def shortCircuit (op : LogicalOp) (cur done : Nat) : Emit P W Unit :=
  match op with
  | .and => emit (.branch .jumpIfFalse cur done)
  | .or => emit (.branch .jumpIfTrue cur done)
  | .coalesce => do
    let cmp ← nullishCmp cur
    emit (.branch .jumpIfFalse cmp done)

/-- `logical`: the left register is the destination of both paths. -/
def logical (op : LogicalOp) (lhs rhs : Emit P W Nat) : Emit P W Nat := do
  let dst ← lhs
  let done ← label
  shortCircuit op dst done
  let r ← rhs
  emit (.move dst r)
  emit (.bind done)
  pure dst

/-- A target's current value in a register of its own. -/
def readCurrent (ref : Ref) : Emit P W Nat := do
  let cur ← newTemp
  ref.readInto cur
  pure cur

/-- The guard of a logical assignment and the label behind the assignment. -/
def assignGuard (op : LogicalOp) (cur : Nat) : Emit P W Nat := do
  let done ← label
  shortCircuit op cur done
  pure done

/-- `logical_assign`; `logical_assign_global` is its case of an unbound name. -/
def logicalAssign (op : LogicalOp) (target : Emit P W Ref) (right : Emit P W Nat) :
    Emit P W Nat := do
  let ref ← target
  let cur ← readCurrent ref
  let done ← assignGuard op cur
  let rhs ← right
  ref.store rhs
  emit (.bind done)
  pure rhs

end Emissions

/-! ## §6 Expressions -/

/-- A form with no arm here: what its code does from a base temporary on. -/
structure OtherForm (W : Type) where
  temps : Nat
  result : Nat
  result_lt : result < temps
  run : Nat → Frame W → Option (Frame W)
  keeps : ∀ base f f', run base f = some f' → ∀ r, base + temps ≤ r → f'.regs r = f.regs r

mutual

inductive Expr (W : Type) where
  | literal (v : JsValue)
  | str (text : String)
  | this
  | superBase
  | ident (id : Ident)
  | paren (e : Expr W)
  | comma (first rest : Expr W)
  | binary (op : Opcode) (lhs rhs : Expr W)
  | logical (op : LogicalOp) (lhs rhs : Expr W)
  | conditional (test consequent alternate : Expr W)
  | member (obj : Expr W) (name : String)
  | computed (obj key : Expr W)
  | privateField (obj : Expr W) (name : String)
  | assign (target : Target W) (right : Expr W)
  | logicalAssign (op : LogicalOp) (target : Target W) (right : Expr W)
  | other (form : OtherForm W)

inductive Target (W : Type) where
  | ident (id : Ident)
  | member (obj : Expr W) (name : String)
  | computed (obj key : Expr W)
  | privateField (obj : Expr W) (name : String)

end

def Expr.isSuper {W : Type} : Expr W → Bool
  | .superBase => true
  | _ => false

section Emissions

variable {P : Plans} {W : Type}

/-- The plain assignment: the target is resolved behind the right-hand side, but a
strict one to an unbound name is probed before it. -/
def assign (unbound : Option String) (right : Emit P W Nat) (target : Emit P W Ref) :
    Emit P W Nat := do
  match unbound with
  | some name =>
    if P.isStrict then
      let probe ← newTemp
      emit (.apply (.getGlobal name) (some probe) [])
  | none => pure ()
  let rhs ← right
  match ← target with
  | .id sym => storeBindingReassign sym rhs
  | ref => ref.store rhs
  pure rhs

/-- The name of an identifier target with no symbol. -/
def Target.unbound : Target W → Option String
  | .ident id => if id.symbol.isNone then some id.name else none
  | .member .. | .computed .. | .privateField .. => none

mutual

/-- `expr`: compiles an expression and returns the register of its value. -/
def expr : Expr W → Emit P W Nat
  | .literal v => do
    let dst ← newTemp
    emit (.load dst v)
    pure dst
  | .str text => loadStrKey text
  | .this => readThis
  | .superBase => superExpr
  | .ident id => readIdentifier id
  | .paren e => expr e
  | .comma first rest => do
    let _ ← expr first
    expr rest
  | .binary op lhs rhs => do
    let l ← expr lhs
    let r ← expr rhs
    let dst ← newTemp
    emit (.apply (.opcode op) (some dst) [l, r])
    pure dst
  | .logical op lhs rhs => logical op (expr lhs) (expr rhs)
  | .conditional test consequent alternate => do
    let cond ← expr test
    let dst ← newTemp
    let elseL ← label
    let endL ← label
    emit (.branch .jumpIfFalse cond elseL)
    let thenR ← expr consequent
    emit (.move dst thenR)
    emit (.branch .jump 0 endL)
    emit (.bind elseL)
    let elseR ← expr alternate
    emit (.move dst elseR)
    emit (.bind endL)
    pure dst
  | .member obj name => do
    let o ← expr obj
    let key ← loadStrKey name
    let dst ← newTemp
    emitMemberLoad dst o key obj.isSuper
    pure dst
  | .computed obj key => do
    let k ← expr key
    let o ← expr obj
    let dst ← newTemp
    emitMemberLoad dst o k obj.isSuper
    pure dst
  | .privateField obj name => do
    let o ← expr obj
    let key ← loadPrivateName name
    let dst ← newTemp
    emit (.apply (.opcode .getProperty) (some dst) [o, key])
    pure dst
  | .assign target right => assign target.unbound (expr right) (targetRef target)
  | .logicalAssign op target right => logicalAssign op (targetRef target) (expr right)
  | .other form => do
    let base ← newTemps form.temps
    emit (.other (form.run base))
    pure (base + form.result)

/-- The head of an assignment's target, with `member_parts`. -/
def targetRef : Target W → Emit P W Ref
  | .ident id => do
    checkAssignTarget id
    pure (identRef id)
  | .member obj name => do
    let o ← expr obj
    let key ← loadStrKey name
    pure (.member o key obj.isSuper)
  | .computed obj key => do
    let k ← expr key
    let o ← expr obj
    pure (.member o k obj.isSuper)
  | .privateField obj name => do
    let o ← expr obj
    let key ← loadPrivateName name
    pure (.member o key obj.isSuper)

end

end Emissions

end V12.Expression
