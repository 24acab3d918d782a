/-
V12.Interp.Suspension — the frames and registers of the interpreter when functions suspend
and are resumed, from the `Await` arm and `decode_parked_call` of
`v12-interp/src/execute.rs`, `generator.rs`, `generator_async.rs`, `call_setup.rs` and
`resume_next_await` of `lib.rs`.

A run is a list of labels in any order, also of what an active function does in its own
window. The cache of outer environments in a frame is left out.
-/
import V12.Lib.Run
import V12.Lib.Windows
import V12.Bytecode.Function
import V12.Bytecode.Wide
import V12.Interp.PendingAwaits

namespace V12.Suspension

open V12.Bytecode Lib
open V12.Awaits (PromiseState AwaitResume)

/-! ## §1 Functions, frames and generators -/

/-- A compiled function with its two flags. -/
structure Func where
  code : FunctionBytecode
  isAsync : Bool
  isGenerator : Bool
  deriving DecidableEq

def Func.maxRegs (f : Func) : Nat := f.code.maxRegs.toNat

/-- `is_async && !is_generator`. -/
def Func.isAsyncFn (f : Func) : Bool := f.isAsync && !f.isGenerator

variable (V E P : Type)

structure Frame where
  fnIdx : Nat
  program : Nat
  pc : Nat
  base : Nat
  maxRegs : Nat
  env : Option E
  generator : Option Nat
  newTarget : Option V
  arguments : Option V

/-- The object a suspended function is kept in; `promise` is slot 4. -/
structure Gen where
  fnIdx : Nat
  program : Nat
  pc : Nat
  dst : Nat
  elements : List V
  env : Option E
  done : Bool
  promise : Option V
  arguments : Option V

/-- What an await waits for: a value, an error, or the settlement of a promise. -/
inductive Awaited where
  | value (v : V)
  | thrown (e : V)
  | promise (p : P)

/-- An async function or generator as it was when it suspended: at the await or yield at `pc`,
before `next`; one that has not started is at no instruction. The code keeps no such record. -/
structure Suspended where
  registers : List V
  env : Option E
  pc : Nat
  next : Nat
  dst : Option Nat
  awaited : Option (Awaited V P)

/-- `read_then` of a value that is no promise; a thenable has a fresh promise. -/
inductive ThenRead where
  | notThenable
  | thenable (promise : V)
  | abrupt (thrown : V)

/-- What the frames take from the rest of the interpreter. -/
structure Host where
  undefined : V
  /-- What a resumption nested too deep throws. -/
  rangeError : V
  /-- `is_promise`. -/
  asPromise : V → Option P
  asPromise_undefined : asPromise undefined = none

/-- The top frame comes first. `programs` is the table shared between programs. -/
structure State where
  functions : List Func
  programs : List (List Func)
  stack : List V
  frames : List (Frame V E)
  gens : Nat → Option (Gen V E)
  count : Nat
  promises : P → PromiseState V
  pendingAwaits : List (Nat × V × Bool)
  /-- `pending_settlements`. -/
  settlements : List (V × V × Bool)
  resumeDepth : Nat
  panicked : Bool
  suspended : Nat → Option (Suspended V E P)

variable {V E P}

def maxResumeDepth : Nat := 64

/-- `functions_for_program`. -/
def State.functionsForProgram (s : State V E P) (id : Nat) : List Func :=
  if id = 0 then s.functions else (s.programs[id]?).getD s.functions

def State.func (s : State V E P) (program fnIdx : Nat) : Option Func :=
  (s.functionsForProgram program)[fnIdx]?

def State.registers (s : State V E P) (f : Frame V E) : List V := window s.stack f.base f.maxRegs

/-- The innermost handler for a pc: of the latest start, the last of them. -/
def innermost (handlers : List HandlerRange) (pc : Nat) : Option HandlerRange :=
  (handlers.filter fun h => h.start ≤ pc && pc < h.stop).foldl
    (fun best h =>
      match best with
      | some b => if b.start ≤ h.start then some h else some b
      | none => some h)
    none

def State.covering (s : State V E P) (program fnIdx pc : Nat) : Option HandlerRange :=
  match s.func program fnIdx with
  | none => none
  | some f => innermost f.code.handlers pc

/-! ## §2 Calls and exceptions -/

def parksConstruct (op : Option Opcode) : Bool :=
  op = some .construct || op = some .superConstruct || op = some .superConstructApply

/-- `decode_parked_call`: whether it is a construct, the destination and the width. -/
def decodeParkedCall (instrs : List Instr) (pc : Nat) : Option (Bool × Nat × Nat) :=
  match instrs[pc]? with
  | none => none
  | some instr =>
    match instr.op with
    | some .wide =>
      match WideOp.tryDecode (instrs.drop pc) with
      | .ok (.callW dst _ _, width) => some (false, dst.toNat, width)
      | .ok (.constructW dst _ _, width) => some (true, dst.toNat, width)
      | .ok (.regExt mask aHi _ _, _) =>
        match instrs[pc + 2]? with
        | none => none
        | some narrow =>
          let dst := if mask &&& 1 ≠ 0 then aHi.toNat * 256 + narrow.a.toNat else narrow.a.toNat
          some (parksConstruct narrow.op, dst, 3)
      | _ => none
    | op => some (parksConstruct op, instr.a.toNat, 1)

/-- The top frame takes a result at the destination of the header it is parked on, and goes on
behind the header. The header is looked up in `functions`. -/
def State.deposit (host : Host V P) (s : State V E P) (instrs : List Instr) (v : V) : State V E P :=
  match s.frames with
  | [] => s
  | caller :: rest =>
    match decodeParkedCall instrs caller.pc with
    | none => s
    | some (_, dst, width) =>
      { s with
        stack := writeAt s.stack (caller.base + dst) v host.undefined
        frames := { caller with pc := caller.pc + width } :: rest }

/-- The register window after an exception is delivered to a handler. -/
def deliver (stack : List V) (base maxRegs depth : Nat) (exc undefined : V) : List V :=
  (resize (stack.take (base + depth) ++ [exc]) (base + maxRegs) undefined).set (base + depth) exc

/-- `unwind`, with the number of frames it must not go below; whether a handler took it. -/
def State.unwind (host : Host V P) (s : State V E P) (exc : V) (stopAt : Option Nat) :
    List (Frame V E) → List V → List (Frame V E) × List V × Bool
  | [], stack => ([], stack, false)
  | f :: rest, stack =>
    match s.covering f.program f.fnIdx f.pc with
    | some h =>
      ({ f with pc := h.target } :: rest,
        deliver stack f.base f.maxRegs h.stackDepth exc host.undefined, true)
    | none =>
      if stopAt = some rest.length then (rest, stack.take f.base, false)
      else s.unwind host exc stopAt rest (stack.take f.base)

/-! ## §3 Suspending and resuming -/

/-- `suspend`: the top frame is moved off the stack into its generator. -/
def State.suspend (host : Host V P) (s : State V E P) (f : Frame V E) (rest : List (Frame V E))
    (g : Nat) (gen : Gen V E) (dst width : Nat) (awaited : Option (Awaited V P)) : State V E P :=
  { s with
    gens := Function.update s.gens g (some
      { gen with
        pc := f.pc + width
        dst
        elements := resize (window s.stack f.base f.maxRegs) f.maxRegs host.undefined
        env := f.env
        done := false })
    frames := rest
    stack := s.stack.take f.base
    suspended :=
      if (s.func f.program f.fnIdx).any Func.isAsync then
        Function.update s.suspended g (some
          { registers := s.registers f, env := f.env, pc := f.pc, next := f.pc + width
            dst := some dst, awaited })
      else s.suspended }

/-- `promise_resolve_for_await`: what is put into the list of pending awaits. -/
def promiseResolveForAwait (host : Host V P) (promises : P → PromiseState V)
    (arg : V) (read : ThenRead V) : V × Bool :=
  match host.asPromise arg with
  | some p =>
    match promises p with
    | .fulfilled payload => (payload, false)
    | .rejected reason => (reason, true)
    | .pending => (arg, false)
  | none =>
    match read with
    | .notThenable => (arg, false)
    | .thenable promise => (promise, false)
    | .abrupt thrown => (thrown, true)

def awaitedOf (host : Host V P) (arg : V) (read : ThenRead V) : Awaited V P :=
  match host.asPromise arg with
  | some p => .promise p
  | none =>
    match read with
    | .notThenable => .value arg
    | .thenable promise =>
      match host.asPromise promise with
      | some p => .promise p
      | none => .value promise
    | .abrupt thrown => .thrown thrown

/-- The `Await` arm for a frame with a generator. Whether its function is an async function is
looked up with the function index in the place of the program, and the header of the frame
below in `functions`, where a missing function panics. -/
def State.awaitArm (host : Host V P) (s : State V E P) (f : Frame V E)
    (rest : List (Frame V E)) (g : Nat) (gen : Gen V E) (dst src width : Nat)
    (read : ThenRead V) : State V E P :=
  let arg := (s.stack[f.base + src]?).getD host.undefined
  let frameIsAsyncFn := (s.func f.fnIdx f.fnIdx).any Func.isAsyncFn
  let (payload, isRejected) := promiseResolveForAwait host s.promises arg read
  let s' := s.suspend host f rest g gen dst width (some (awaitedOf host arg read))
  let s' := { s' with pendingAwaits := s'.pendingAwaits ++ [(g, payload, isRejected)] }
  if frameIsAsyncFn then
    match s'.frames with
    | [] => s'
    | caller :: _ =>
      match s'.functions[caller.fnIdx]? with
      | none => { s' with panicked := true }
      | some fn => s'.deposit host fn.code.instrs (gen.promise.getD host.undefined)
  else s'

/-- `resume_generator_nested` up to the first instruction: the window is put on top of the stack,
the value into the destination of the await, and an exception is injected, which it throws if
nothing takes it. -/
def State.resumeNested (host : Host V P) (s : State V E P) (g : Nat) (gen : Gen V E) (value : V)
    (isThrow : Bool) : State V E P × Option V :=
  match s.func gen.program gen.fnIdx with
  | none => ({ s with panicked := true }, none)
  | some fn =>
    let restored := resize gen.elements fn.maxRegs host.undefined
    let restored := if gen.pc ≠ 0 ∧ gen.dst < fn.maxRegs then restored.set gen.dst value else restored
    let frame : Frame V E :=
      { fnIdx := gen.fnIdx, program := gen.program, pc := gen.pc, base := s.stack.length
        maxRegs := fn.maxRegs, env := gen.env, generator := some g, newTarget := none
        arguments := gen.arguments }
    let s' := { s with
      stack := s.stack ++ restored
      frames := frame :: s.frames
      suspended := Function.update s.suspended g none }
    if isThrow then
      match s'.unwind host value (some s.frames.length) s'.frames s'.stack with
      | (frames, stack, true) => ({ s' with frames, stack }, none)
      | (frames, stack, false) =>
        -- only an async generator is marked
        if fn.isAsync && fn.isGenerator then
          ({ s' with
            frames, stack, gens := Function.update s.gens g (some { gen with done := true }) },
            some value)
        else ({ s' with frames, stack }, some value)
    else (s', none)

/-- `resume_generator`: too deep, nothing is resumed. -/
def State.resumeGenerator (host : Host V P) (s : State V E P) (g : Nat) (value : V)
    (isThrow : Bool) : State V E P × Option V :=
  if maxResumeDepth ≤ s.resumeDepth then (s, some host.rangeError)
  else
    match s.gens g with
    | none => (s, none)
    | some gen => s.resumeNested host g gen value isThrow

/-- `await_resume_value`. -/
def awaitResumeValue (host : Host V P) (promises : P → PromiseState V) (val : V)
    (isReject : Bool) : AwaitResume V :=
  if isReject then .run val true
  else
    match host.asPromise val with
    | none => .run val false
    | some p =>
      match promises p with
      | .pending => .skip
      | .fulfilled payload =>
        if (host.asPromise payload).isSome then .adopt payload else .run payload false
      | .rejected reason => .run reason true

/-- An exception out of a resumed function rejects its promise. -/
def State.rejects (s : State V E P) (g : Nat) (thrown : Option V) : State V E P :=
  match thrown, (s.gens g).bind Gen.promise with
  | some e, some promise => { s with settlements := s.settlements ++ [(promise, e, true)] }
  | _, _ => s

/-- `resume_next_await`. -/
def State.resumeNextAwait (host : Host V P) (s : State V E P) : State V E P :=
  match s.pendingAwaits with
  | [] => s
  | (g, val, isReject) :: rest =>
    match awaitResumeValue host s.promises val isReject with
    | .skip => { s with pendingAwaits := rest ++ [(g, val, isReject)] }
    | .adopt payload => { s with pendingAwaits := rest ++ [(g, payload, false)] }
    | .run value reject =>
      let (s', thrown) := { s with pendingAwaits := rest }.resumeGenerator host g value reject
      s'.rejects g thrown

/-! ## §4 Labels -/

variable (V E P) in
inductive Label where
  /-- The top frame works in its window and goes on at some pc. -/
  | work (registers : List V) (pc : Nat) (env : Option E) (arguments : Option V)
  /-- A call, inline or from native code. -/
  | call (fnIdx program base : Nat) (registers : List V) (env : Option E)
    (newTarget arguments : Option V)
  /-- `complete_frame` into the caller's header. -/
  | returns (result : V)
  /-- `complete_frame` at the boundary of a nested run, or a frame dropped after an error. -/
  | leave (result : V) (isError : Bool)
  /-- An exception unwinds down to a boundary. -/
  | throws (exc : V) (stopAt : Option Nat)
  /-- A call of an async function or of a generator function: the body starts later. -/
  | create (fnIdx program : Nat) (registers : List V) (env : Option E) (promise : V)
    (arguments : Option V)
  /-- The `Await` arm. -/
  | await (dst src width : Nat) (read : ThenRead V)
  /-- The `SuspendYield` arm. -/
  | yields (dst width : Nat)
  /-- A call of `next`, `return` or `throw` of a generator. -/
  | next (g : Nat) (value : V) (isThrow : Bool)
  /-- A promise settles, never with a promise. -/
  | settle (p : P) (outcome : PromiseState V)
  | resumeNext
  /-- A program is registered. -/
  | register (functions : List Func)
  /-- Nested calls come and go. -/
  | depth (n : Nat)

def State.Known (s : State V E P) (program : Nat) : Prop :=
  program = 0 ∨ program < s.programs.length

instance (s : State V E P) (program : Nat) : Decidable (s.Known program) :=
  inferInstanceAs (Decidable (_ ∨ _))

def State.top (s : State V E P) : Nat :=
  match s.frames with
  | [] => 0
  | f :: _ => f.base + f.maxRegs

def State.genFunc (s : State V E P) (g : Nat) : Option Func :=
  (s.gens g).bind fun gen => s.func gen.program gen.fnIdx

def State.genIsAsyncFn (s : State V E P) (g : Nat) : Bool := (s.genFunc g).any Func.isAsyncFn

def State.genIsAsync (s : State V E P) (g : Nat) : Bool := (s.genFunc g).any Func.isAsync

def ThenRead.fresh (host : Host V P) (promises : P → PromiseState V) : ThenRead V → Bool
  | .thenable promise =>
    match host.asPromise promise with
    | none => false
    | some p =>
      match promises p with
      | .pending => true
      | _ => false
  | _ => true

def Plain (host : Host V P) : PromiseState V → Bool
  | .fulfilled v => (host.asPromise v).isNone
  | _ => true

def work (s : State V E P) (registers : List V) (pc : Nat) (env : Option E)
    (arguments : Option V) : State V E P :=
  match s.frames with
  | [] => s
  | f :: rest =>
    if registers.length = f.maxRegs then
      { s with
        stack := s.stack.take f.base ++ registers ++ s.stack.drop (f.base + f.maxRegs)
        frames := { f with pc, env, arguments } :: rest }
    else s

def call (s : State V E P) (fnIdx program base : Nat) (registers : List V) (env : Option E)
    (newTarget arguments : Option V) : State V E P :=
  match s.func program fnIdx with
  | none => s
  | some fn =>
    if s.Known program ∧ registers.length = fn.maxRegs ∧ s.top ≤ base ∧ base ≤ s.stack.length then
      { s with
        stack := s.stack.take base ++ registers
        frames :=
          { fnIdx, program, pc := 0, base, maxRegs := fn.maxRegs, env, generator := none
            newTarget, arguments } :: s.frames }
    else s

def returns (host : Host V P) (s : State V E P) (result : V) : State V E P :=
  match s.frames with
  | f :: caller :: rest =>
    match f.generator, s.func caller.program caller.fnIdx with
    | none, some fn =>
      { s with stack := s.stack.take f.base, frames := caller :: rest }.deposit host
        fn.code.instrs result
    | _, _ => s
  | _ => s

/-- The nested run of a frame ends, and with it its generator; an async function settles. -/
def State.finish (s : State V E P) (f : Frame V E) (result : V) (isError : Bool) : State V E P :=
  match f.generator with
  | none => s
  | some g =>
    match s.gens g with
    | none => s
    | some gen =>
      { s with
        gens := Function.update s.gens g (some { gen with done := true })
        settlements := s.settlements ++ (gen.promise.map fun p => (p, result, isError)).toList }

def leave (s : State V E P) (result : V) (isError : Bool) : State V E P :=
  match s.frames with
  | [] => s
  | f :: rest =>
    { s with stack := s.stack.take f.base, frames := rest }.finish f result isError

/-- The call of an async function queues its start; its `promise` is the result of the call. -/
def create (host : Host V P) (s : State V E P) (fnIdx program : Nat) (registers : List V)
    (env : Option E) (promise : V) (arguments : Option V) : State V E P :=
  match s.func program fnIdx with
  | none => s
  | some fn =>
    if s.Known program ∧ registers.length = fn.maxRegs ∧ (fn.isAsync || fn.isGenerator) then
      { s with
        gens := Function.update s.gens s.count (some
          { fnIdx, program, pc := 0, dst := 0, elements := registers, env, done := false
            promise := if fn.isGenerator then none else some promise, arguments })
        count := s.count + 1
        pendingAwaits :=
          if fn.isGenerator then s.pendingAwaits
          else s.pendingAwaits ++ [(s.count, host.undefined, false)]
        suspended :=
          if fn.isAsync then
            Function.update s.suspended s.count (some
              { registers, env, pc := 0, next := 0, dst := none
                awaited := if fn.isGenerator then none else some (.value host.undefined) })
          else s.suspended }
    else s

/-- The frame on top, with its generator. -/
def State.running (s : State V E P) : Option (Frame V E × List (Frame V E) × Nat × Gen V E) :=
  match s.frames with
  | [] => none
  | f :: rest => f.generator.bind fun g => (s.gens g).map fun gen => (f, rest, g, gen)

/-- Only the code of async functions and generators has the instruction. -/
def await (host : Host V P) (s : State V E P) (dst src width : Nat) (read : ThenRead V) :
    State V E P :=
  match s.running with
  | none => s
  | some (f, rest, g, gen) =>
    if 0 < width ∧ (s.func f.program f.fnIdx).any Func.isAsync ∧ read.fresh host s.promises then
      s.awaitArm host f rest g gen dst src width read
    else s

def yields (host : Host V P) (s : State V E P) (dst width : Nat) : State V E P :=
  match s.running with
  | none => s
  | some (f, rest, g, gen) =>
    if 0 < width ∧ ¬ (s.func f.program f.fnIdx).any Func.isAsyncFn then
      s.suspend host f rest g gen dst width none
    else s

/-- `generator_next`, `generator_return` and `generator_throw`: one that is done answers at once. An
async generator queues its requests while it runs or awaits; any other is resumed, and in a second
frame if it is running. -/
def next (host : Host V P) (s : State V E P) (g : Nat) (value : V) (isThrow : Bool) : State V E P :=
  match s.gens g with
  | none => s
  | some gen =>
    if gen.done || s.genIsAsyncFn g then s
    else if s.genIsAsync g && !(s.suspended g).any fun saved => saved.awaited.isNone then s
    else (s.resumeGenerator host g value isThrow).1

def act [DecidableEq P] (host : Host V P) (s : State V E P) : Label V E P → State V E P
  | .work registers pc env arguments => work s registers pc env arguments
  | .call fnIdx program base registers env newTarget arguments =>
    call s fnIdx program base registers env newTarget arguments
  | .returns result => returns host s result
  | .leave result isError => leave s result isError
  | .throws exc stopAt =>
    let (frames, stack, _) := s.unwind host exc stopAt s.frames s.stack
    (s.frames.take (s.frames.length - frames.length)).foldl (fun s f => s.finish f exc true)
      { s with frames, stack }
  | .create fnIdx program registers env promise arguments =>
    create host s fnIdx program registers env promise arguments
  | .await dst src width read => await host s dst src width read
  | .yields dst width => yields host s dst width
  | .next g value isThrow => next host s g value isThrow
  | .settle p outcome =>
    match s.promises p with
    | .pending =>
      if Plain host outcome then { s with promises := Function.update s.promises p outcome } else s
    | _ => s
  | .resumeNext => s.resumeNextAwait host
  | .register functions => { s with programs := s.programs ++ [functions] }
  | .depth n => { s with resumeDepth := n }

def step [DecidableEq P] (host : Host V P) (s : State V E P) (l : Label V E P) : State V E P :=
  if s.panicked then s else act host s l

def State.start (functions : List Func) (programs : List (List Func)) : State V E P where
  functions := functions
  programs := programs
  stack := []
  frames := []
  gens _ := none
  count := 0
  promises _ := .pending
  pendingAwaits := []
  settlements := []
  resumeDepth := 0
  panicked := false
  suspended _ := none

/-! ## §5 What suspending and resuming should do -/

def settlement (promises : P → PromiseState V) : Awaited V P → Option (V × Bool)
  | .value v => some (v, false)
  | .thrown e => some (e, true)
  | .promise p =>
    match promises p with
    | .pending => none
    | .fulfilled v => some (v, false)
    | .rejected e => some (e, true)

/-- Nothing of the frames, and of the generators but this one, is touched. -/
structure Isolated (s s' : State V E P) (frames : List (Frame V E)) (g : Nat) : Prop where
  registers : ∀ f ∈ frames, s'.registers f = s.registers f
  gens : ∀ g', g' ≠ g → s'.gens g' = s.gens g'
  panicked : s'.panicked = s.panicked

def OnTop (s s' : State V E P) (g : Nat) (gen : Gen V E) (saved : Suspended V E P) (pc : Nat)
    (registers : List V) : Prop :=
  ∃ f, s'.frames = f :: s.frames ∧ f.generator = some g ∧ f.fnIdx = gen.fnIdx ∧
    f.program = gen.program ∧ f.pc = pc ∧ f.env = saved.env ∧ s'.registers f = registers

def delivered (host : Host V P) (registers : List V) (depth : Nat) (exc : V) : List V :=
  deliver registers 0 registers.length depth exc host.undefined

/-- The exception is thrown at the await, with the handlers in force there; without one the promise
of the function is rejected. -/
def Raises (host : Host V P) (s s' : State V E P) (g : Nat) (gen : Gen V E)
    (saved : Suspended V E P) (exc : V) : Prop :=
  s.covering gen.program gen.fnIdx saved.next = s.covering gen.program gen.fnIdx saved.pc ∧
  match s.covering gen.program gen.fnIdx saved.pc with
  | some h => OnTop s s' g gen saved h.target (delivered host saved.registers h.stackDepth exc)
  | none => s'.frames = s.frames ∧ s'.suspended g = none ∧
    ∃ promise, gen.promise = some promise ∧
      s'.settlements = s.settlements ++ [(promise, exc, true)]

def restored (saved : Suspended V E P) (value : V) : List V :=
  match saved.dst with
  | none => saved.registers
  | some dst => saved.registers.set dst value

/-- The function goes on behind the await with the value in its destination. -/
def Continues (s s' : State V E P) (g : Nat) (gen : Gen V E) (saved : Suspended V E P)
    (value : V) : Prop :=
  OnTop s s' g gen saved saved.next (restored saved value)

/-- What resuming an async function should do. -/
structure Restored (host : Host V P) (s s' : State V E P) (g : Nat) (value : V)
    (reject : Bool) : Prop where
  resumed : ∃ gen saved awaited, s.gens g = some gen ∧ s.suspended g = some saved ∧
    saved.awaited = some awaited ∧ settlement s.promises awaited = some (value, reject) ∧
    if reject then Raises host s s' g gen saved value else Continues s s' g gen saved value
  isolated : Isolated s s' s.frames g

def Good [DecidableEq P] (host : Host V P) (s : State V E P) (l : Label V E P) : Prop :=
  s.panicked = false →
  match l with
  | .await _ _ width read => ∀ f rest g, s.frames = f :: rest → f.generator = some g →
    s.genIsAsyncFn g → 0 < width → read.fresh host s.promises →
    (step host s l).frames = rest ∧ Isolated s (step host s l) rest g
  | .resumeNext => ∀ g val isReject rest value reject,
    s.pendingAwaits = (g, val, isReject) :: rest →
    awaitResumeValue host s.promises val isReject = .run value reject → s.genIsAsyncFn g →
    Restored host s (step host s l) g value reject
  | _ => True

end V12.Suspension
