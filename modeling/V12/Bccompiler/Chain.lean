/-
V12.Bccompiler.Chain — optional chains, from `chain_expr` in
`v12-bccompiler/src/expr.rs`, and their evaluation.

A chain is a head and a list of links, the head's side first. Each `?.` link
compares its incoming value with `null` by the operator `==` and leaves for one
shared label; a member link remembers the object it read from for a call link
behind it. `evalLinks` is the evaluation ECMAScript defines, on values.
-/
import V12.Bccompiler.Sequencing
import V12.Interp.Coercions

namespace V12.Expression

open V12.Heap (JsValue)
open V12.Bytecode (BranchOp Opcode)
open V12.Interp (Coercions)

variable {P : Plans} {W : Type}

/-! ## §1 The parts of a chain -/

/-- An item changes no register from `lo` on and below `hi`. -/
def Item.Spares (lo hi : Nat) (item : Item W) : Prop :=
  ∀ (M : Machine W) (f f' : Frame W), (item.run M f).frame? = some f' →
    ∀ r, lo ≤ r → r < hi → f'.regs r = f.regs r

def SparesTemps {α : Type} (m : Emit P W α) : Prop :=
  ∀ cx a cx' code, m cx = some (a, cx', code) →
    ∀ item ∈ code, item.Spares P.localsEnd cx.tempTop

/-- A compiled expression inside a chain: its value is in a temporary of its own. -/
structure Part (P : Plans) (W : Type) where
  emit : Emit P W Nat
  fresh : FreshExpr emit
  spares : SparesTemps emit

/-- The register of a head's value and, for a reference in parentheses, that of the object the
value was read from. -/
structure HeadRegs where
  value : Nat
  object : Option Nat

def HeadRegs.Fresh (cx : FnCtx P) (h : HeadRegs) (cx' : FnCtx P) : Prop :=
  Expression.Fresh cx h.value cx' ∧ ∀ o, h.object = some o → Expression.Fresh cx o cx'

/-- The expression a chain starts from. -/
structure Head (P : Plans) (W : Type) where
  emit : Emit P W HeadRegs
  isSuper : Bool
  fresh : ∀ (base : Nat) (cx : FnCtx P), base ≤ cx.labels →
    Disciplined base cx emit fun h cx' => h.Fresh cx cx'
  spares : SparesTemps emit

structure Arg (P : Plans) (W : Type) where
  value : Part P W
  spread : Bool

inductive LinkKind (P : Plans) (W : Type) where
  | member (name : String)
  | computed (key : Part P W)
  | privateField (name : String)
  | call (args : List (Arg P W))

/-- `SpineLink`. -/
structure Link (P : Plans) (W : Type) where
  isOptional : Bool
  kind : LinkKind P W

/-! ## §2 The emission -/

/-- `cur` and `prev_recv`. -/
structure Spot where
  cur : Nat
  recv : Option Nat

/-- `nullish_exit`. -/
def nullishExit (v dst exit : Nat) : Emit P W Unit := do
  let cmp ← nullishCmp v
  let keepGoing ← label
  emit (.branch .jumpIfFalse cmp keepGoing)
  emit (.load dst .undefined)
  emit (.branch .jump 0 exit)
  emit (.bind keepGoing)

def emitMember (key : Emit P W Nat) (s : Spot) : Emit P W Spot := do
  let k ← key
  let nxt ← newTemp
  emit (.apply (.opcode .getProperty) (some nxt) [s.cur, k])
  pure ⟨nxt, some s.cur⟩

/-- `expr_into`. -/
def exprInto (e : Emit P W Nat) (forced : Nat) : Emit P W Unit := do
  let r ← e
  if r = forced then pure () else emit (.move forced r)

/-- The arguments from `slot` on. -/
def emitArgs (slot : Nat) : List (Arg P W) → Emit P W Unit
  | [] => pure ()
  | arg :: args => do
    exprInto arg.value.emit slot
    emitArgs (slot + 1) args

/-- The argument of a call with a spread one, appended to the array. -/
def emitAppend (arr : Nat) (arg : Arg P W) : Emit P W Unit := do
  let src ← arg.value.emit
  if arg.spread then
    emit (.apply (.opcode .checkIsArray) none [src])
    emit (.apply (.opcode .arrayAppend) none [arr, src])
  else
    let lenKey ← loadStrKey "length"
    let len ← newTemp
    emit (.apply (.opcode .getProperty) (some len) [arr, lenKey])
    emit (.apply (.opcode .setProperty) none [arr, len, src])

/-- `build_args_array`. -/
def buildArgsArray (args : List (Arg P W)) : Emit P W Nat := do
  let arr ← newTemp
  emit (.apply (.opcode .newArray) (some arr) [])
  args.forM (emitAppend arr)
  pure arr

def emitReceiver (recv : Option Nat) (dst : Nat) : Emit P W Unit :=
  match recv with
  | some r => emit (.move dst r)
  | none => emit (.load dst .undefined)

def emitWindow (s : Spot) (argc : Nat) : Emit P W Nat := do
  let window ← newTemps (2 + argc)
  emit (.move window s.cur)
  emitReceiver s.recv (window + 1)
  pure window

def emitDispatch (args : List (Arg P W)) (window : Nat) : Emit P W Unit := do
  if args.any Arg.spread then
    let arr ← buildArgsArray args
    emit (.apply (.opcode .callApply) (some window) [window, window + 1, arr])
  else
    emitArgs (window + 2) args
    emit (.apply .call (some window) (List.range' window (2 + args.length)))

def emitCallLink (args : List (Arg P W)) (s : Spot) : Emit P W Spot := do
  if 65535 < args.length then Emit.err
  else
    let window ← emitWindow s args.length
    emitDispatch args window
    pure ⟨window, none⟩

def LinkKind.emit (kind : LinkKind P W) (s : Spot) : Emit P W Spot :=
  match kind with
  | .member name => emitMember (loadStrKey name) s
  | .computed key => emitMember key.emit s
  | .privateField name => emitMember (loadPrivateName name) s
  | .call args => emitCallLink args s

def emitGuard (isOptional : Bool) (cur dst exit : Nat) : Emit P W Unit :=
  if isOptional then nullishExit cur dst exit else pure ()

def emitLinks (dst exit : Nat) : List (Link P W) → Spot → Emit P W Nat
  | [], s => pure s.cur
  | link :: links, s => do
    emitGuard link.isOptional s.cur dst exit
    let s' ← link.kind.emit s
    emitLinks dst exit links s'

/-- `chain_expr`. -/
def chainExpr (head : Head P W) (links : List (Link P W)) : Emit P W Nat := do
  let exit ← label
  let dst ← newTemp
  let h ← head.emit
  let cur ← emitLinks dst exit links ⟨h.value, none⟩
  emit (.move dst cur)
  emit (.bind exit)
  pure dst

/-! ## §3 The evaluation -/

/-- A machine whose `==` with `null` and whose truth of booleans are the interpreter's: an
object operand is converted to a primitive. -/
structure ChainMachine (W : Type) extends Machine W, Coercions W where
  apply_eq_null : ∀ v w, apply (.opcode .eq) [v, .null] w =
    (toCoercions.toPrimitiveWithHint .default v w).map fun r => (.bool (isNullish r.1), r.2)
  toBoolean_bool : ∀ w b, toBoolean w (.bool b) = b

/-- Where an evaluation is: the value so far; the receiver of a call of it; for a value that is
`super`, the receiver of a lookup on it; and where the compiled code is. -/
structure At (P : Plans) (W : Type) where
  value : JsValue
  receiver : Option JsValue
  lookup : Option JsValue
  spot : Spot
  cx : FnCtx P
  frame : Frame W

/-- The `this` value of a call. -/
def At.this (a : At P W) : JsValue := a.receiver.getD .undefined

/-- `[[Get]]` with a receiver. -/
def getWith (M : Machine W) (obj key receiver : JsValue) (w : W) : Option (JsValue × W) :=
  if receiver = obj then M.apply (.opcode .getProperty) [obj, key] w
  else M.apply .getSuper [obj, key, receiver] w

/-- The counters behind `n` more temporaries. -/
def FnCtx.addTemps (cx : FnCtx P) (n : Nat) : FnCtx P :=
  ⟨cx.tempTop + n, cx.labels, Nat.lt_of_lt_of_le cx.above (Nat.le_add_right _ _)⟩

def At.enter (isOptional : Bool) (a : At P W) : At P W :=
  if isOptional then
    { a with
      cx := { a.cx.addTemps 2 with labels := a.cx.labels + 1 }
      frame := (a.frame.write a.cx.tempTop .null).write (a.cx.tempTop + 1) (.bool false) }
  else a

def evalArgs (M : Machine W) : Nat → List (Arg P W) → FnCtx P → Frame W →
    Option (List JsValue × FnCtx P × Frame W)
  | _, [], cx, f => some ([], cx, f)
  | slot, arg :: args, cx, f =>
    match arg.value.emit.runFrom M cx f with
    | none => none
    | some (r, cx₁, f₁) =>
      match evalArgs M (slot + 1) args cx₁ (f₁.write slot (f₁.regs r)) with
      | none => none
      | some (vs, cx₂, f₂) => some (f₁.regs r :: vs, cx₂, f₂)

def stepMember (M : Machine W) (key : Emit P W Nat) (a : At P W) : Option (At P W) :=
  match key.runFrom M a.cx a.frame with
  | none => none
  | some (k, cx₁, f₁) =>
    match getWith M a.value (f₁.regs k) (a.lookup.getD a.value) f₁.world with
    | none => none
    | some (v, w) =>
      some ⟨v, some (a.lookup.getD a.value), none, ⟨cx₁.tempTop, some a.spot.cur⟩,
        cx₁.addTemps 1, { f₁ with world := w }.write cx₁.tempTop v⟩

/-- A call link: the arguments, then the call of the value on its receiver. -/
def stepCall (M : Machine W) (args : List (Arg P W)) (a : At P W) : Option (At P W) :=
  let window := a.cx.tempTop
  let cx₁ := a.cx.addTemps (2 + args.length)
  let f₁ := (a.frame.write window a.value).write (window + 1) a.this
  let returned (res : JsValue × W) (cx₂ : FnCtx P) (f₂ : Frame W) : At P W :=
    ⟨res.1, none, none, ⟨window, none⟩, cx₂, { f₂ with world := res.2 }.write window res.1⟩
  if args.any Arg.spread then
    match (buildArgsArray args).runFrom M cx₁ f₁ with
    | none => none
    | some (arr, cx₂, f₂) =>
      (M.apply (.opcode .callApply) [a.value, a.this, f₂.regs arr] f₂.world).map
        fun res => returned res cx₂ f₂
  else
    match evalArgs M (window + 2) args cx₁ f₁ with
    | none => none
    | some (vs, cx₂, f₂) =>
      (M.apply .call (a.value :: a.this :: vs) f₂.world).map fun res => returned res cx₂ f₂

def LinkKind.step (M : Machine W) (kind : LinkKind P W) (a : At P W) : Option (At P W) :=
  match kind with
  | .member name => stepMember M (loadStrKey name) a
  | .computed key => stepMember M key.emit a
  | .privateField name => stepMember M (loadPrivateName name) a
  | .call args => stepCall M args a

/-- A `?.` link in front of which the chain ends. -/
def Link.stops (link : Link P W) (a : At P W) : Bool := link.isOptional && isNullish a.value

/-- How a chain ends: cut short, or behind its last link. -/
structure Finish (W : Type) where
  short : Bool
  value : JsValue
  frame : Frame W

/-- The links in order, up to a `?.` whose value is nullish. -/
def evalLinks (M : Machine W) : List (Link P W) → At P W → Option (Finish W)
  | [], a => some ⟨false, a.value, a.frame⟩
  | link :: links, a =>
    if link.stops a then some ⟨true, .undefined, a.frame⟩
    else
      match link.kind.step M (a.enter link.isOptional) with
      | none => none
      | some a' => evalLinks M links a'

/-- The evaluation's start: `super` stands for its base, to be looked up with `this`. -/
def headAt (M : Machine W) (head : Head P W) (h : HeadRegs) (cx : FnCtx P) (f : Frame W) :
    Option (At P W) :=
  let plain : At P W := ⟨f.regs h.value, h.object.map f.regs, none, ⟨h.value, none⟩, cx, f⟩
  if head.isSuper then
    (checkThis M P f.world (thisValue M P f)).map fun w =>
      { plain with lookup := some (thisValue M P f), frame := { f with world := w } }
  else some plain

def chainStart (cx : FnCtx P) : FnCtx P := { cx.addTemps 1 with labels := cx.labels + 1 }

def evalChain (M : Machine W) (head : Head P W) (links : List (Link P W)) (cx : FnCtx P)
    (f : Frame W) : Option (Finish W) :=
  match head.emit.runFrom M (chainStart cx) f with
  | none => none
  | some (h, cx₁, f₁) => (headAt M head h cx₁ f₁).bind (evalLinks M links)

/-! ## §4 What is asked of a chain -/

/-- `Q` at every link the evaluation comes to. -/
def Along (M : Machine W) (Q : Link P W → At P W → Prop) : List (Link P W) → At P W → Prop
  | [], _ => True
  | link :: links, a =>
    Q link a ∧ (link.stops a = false →
      ∀ a', link.kind.step M (a.enter link.isOptional) = some a' → Along M Q links a')

/-- The guard's code leaves for the exit exactly when the value is nullish, and nothing else
happens in it. -/
def GuardRight (M : Machine W) (a : At P W) : Prop :=
  ∀ dst exit cx' code, exit < a.cx.labels →
    nullishExit a.spot.cur dst exit a.cx = some ((), cx', code) →
    if isNullish a.value then
      ∃ g, exec M code (.running a.frame) = .seeking exit g ∧ g.world = a.frame.world
    else exec M code (.running a.frame) = .running (a.enter true).frame

/-- A call's window gets the callee and the receiver; a lookup, whose receiver is the object
in its register, is on the receiver. -/
def OperandsRight (M : Machine W) (kind : LinkKind P W) (a : At P W) : Prop :=
  match kind with
  | .call args => ∀ window cx' f',
    (emitWindow a.spot args.length).runFrom M a.cx a.frame = some (window, cx', f') →
      f'.regs window = a.value ∧ f'.regs (window + 1) = a.this
  | _ => a.frame.regs a.spot.cur = a.lookup.getD a.value

def LinkRight (M : Machine W) (link : Link P W) (a : At P W) : Prop :=
  (link.isOptional = true → GuardRight M a) ∧
    (link.stops a = false → OperandsRight M link.kind (a.enter link.isOptional))

/-- What is asked of one evaluation of a compiled chain: behind the head and at every link
evaluation comes to the code does what the evaluation does, and it ends as that ends. -/
def ChainHeld (M : Machine W) (head : Head P W) (links : List (Link P W)) (cx : FnCtx P)
    (f : Frame W) : Prop :=
  ∀ dst cx' code, chainExpr head links cx = some (dst, cx', code) →
    (∀ h cx₁ f₁, head.emit.runFrom M (chainStart cx) f = some (h, cx₁, f₁) →
      ∃ a, headAt M head h cx₁ f₁ = some a ∧ a.frame = f₁ ∧ Along M (LinkRight M) links a) ∧
    (evalChain M head links cx f = none → completes M code f = none) ∧
    ∀ fin, evalChain M head links cx f = some fin →
      ∃ f', completes M code f = some f' ∧ f'.world = fin.frame.world ∧
        f'.regs dst = fin.value ∧ ∀ r, r < cx.tempTop → f'.regs r = fin.frame.regs r

/-- The comparison of a value with `null` says whether it is nullish, and does nothing else. -/
def Calm (M : ChainMachine W) (v : JsValue) (w : W) : Prop :=
  ∃ p, M.toPrimitiveWithHint .default v w = some (p, w) ∧ isNullish p = isNullish v

/-- The head is not called with an object to be its receiver, nor looked up on with another
receiver than itself, by the first link. -/
def FirstPlain (links : List (Link P W)) (a : At P W) : Prop :=
  match links with
  | [] => True
  | link :: _ => link.stops a = false →
    match link.kind with
    | .call _ => a.this = .undefined
    | _ => a.lookup.getD a.value = a.value

/-- The test of `this` behind a `super` head passes and does nothing, the first link finds a
plain head, and every comparison is calm. -/
def ChainCalm (M : ChainMachine W) (head : Head P W) (links : List (Link P W)) (cx : FnCtx P)
    (f : Frame W) : Prop :=
  ∀ dst cx' code, chainExpr head links cx = some (dst, cx', code) →
    ∀ h cx₁ f₁, head.emit.runFrom M.toMachine (chainStart cx) f = some (h, cx₁, f₁) →
      ∃ a, headAt M.toMachine head h cx₁ f₁ = some a ∧ a.frame = f₁ ∧ FirstPlain links a ∧
        Along M.toMachine
          (fun link a => link.isOptional = true → Calm M a.value a.frame.world) links a

end V12.Expression
