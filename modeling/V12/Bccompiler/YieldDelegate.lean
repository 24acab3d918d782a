/-
V12.Bccompiler.YieldDelegate — the code `yield*` compiles to, from the
delegate arm of `YieldExpression` and `emit_delegate_return_path` in
`v12-bccompiler/src/expr.rs`, run as `v12-interp` runs it.

`delegateCode` is the emitted code from `iter_ready` on; `Config.step` runs one
instruction against an inner iterator; `resume` is what `next`, `throw` and
`return` do at the delegating yield. `Delegation` is what the language says.
-/
import Mathlib.Tactic.Common

namespace V12.Delegate

/-! ## §1 The inner iterator -/

/-- What an inner method returned: an object, by its data properties `done` and `value`,
`undefined` or `null`, or another primitive. -/
inductive IterResult (V : Type) where
  | object (done : Bool) (value : V)
  | nullish
  | primitive
  deriving DecidableEq, Repr

/-- A thrown value, or the `TypeError` the machine makes. -/
inductive Thrown (V : Type) where
  | value (e : V)
  | typeError
  deriving DecidableEq, Repr

/-- A method of the inner iterator: the state after it, and what it returned or
threw. In an async generator the result is the awaited one. -/
abbrev Method (σ V : Type) := σ → V → σ × Except V (IterResult V)

/-- An inner iterator. Its methods are fixed for the delegation; the code looks `next` and `return`
up again at each request. -/
structure Inner (σ V : Type) where
  next : Method σ V
  throwMethod : Option (Method σ V)
  returnMethod : Option (Method σ V)

/-- A call the inner iterator receives, by method and argument. -/
inductive InnerCall (V : Type) where
  | next (v : V)
  | throws (e : V)
  | returns (v : V)
  | close
  deriving DecidableEq, Repr

/-- A request on the outer generator while it is suspended in the delegation. -/
inductive Request (V : Type) where
  | next (v : V)
  | throws (e : V)
  | returns (v : V)
  deriving DecidableEq, Repr

/-- What the outer generator answers: it yields, the `yield*` expression has a value,
a return completion leaves it, or it throws. -/
inductive Response (V : Type) where
  | yielded (v : V)
  | completed (v : V)
  | returned (v : V)
  | threw (e : Thrown V)
  deriving DecidableEq, Repr

/-- The kind of the outer generator; an async one awaits with `await`. -/
inductive GenKind (V : Type) where
  | sync
  | async (await : V → Except V V)

def GenKind.isAsync {V : Type} : GenKind V → Bool
  | .sync => false
  | .async _ => true

/-- `Await` in the generator: nothing to wait for in a sync one. -/
def GenKind.await {V : Type} : GenKind V → V → Except V V
  | .sync, v => .ok v
  | .async await, v => await v

/-! ## §2 The emitted code -/

/-- The property names the code loads. -/
inductive Key where
  | next
  | done
  | value
  | returnKey
  deriving DecidableEq, Repr

/-- The registers, by the names `expr.rs` gives them; a call block has three slots. -/
inductive Reg where
  | iter
  | ret
  | nextKey
  | doneKey
  | valueKey
  | result
  | nextFn
  | block (i : Fin 3)
  | awaitedResult
  | doneVal
  | yielded
  | awaitedYield
  | ydst
  | awaitedResume
  | mode
  | retKey
  | rfn
  | retBlock (i : Fin 3)
  | awaitedReturn
  | retValueKey
  | rvalue
  | fwdBlock (i : Fin 3)
  deriving DecidableEq, Repr

inductive Label where
  | loopEnd
  | processResult
  | resumeOk
  deriving DecidableEq, Repr

/-- The opcodes the delegate arm emits. `finallyCopies` stands for the copies of
the enclosing finalizers on the return path. -/
inductive Instr where
  | loadStr (dst : Reg) (key : Key)
  | loadUndefined (dst : Reg)
  | getProperty (dst obj key : Reg)
  | moveReg (dst src : Reg)
  | call (dst fn this : Reg) (args : List Reg)
  | await (dst src : Reg) (value : Bool)
  | jumpIfTrue (cond : Reg) (label : Label)
  | jumpIfFalse (cond : Reg) (label : Label)
  | jump (label : Label)
  | suspendYield (src : Reg)
  | genResumeMode (dst : Reg)
  | finallyCopies
  | returns (src : Reg)
  | bind (label : Label)
  deriving DecidableEq, Repr

/-- `emit_delegate_return_path`. -/
def delegateReturnPath (async : Bool) : List Instr :=
  ([.genResumeMode .mode, .jumpIfFalse .mode .resumeOk, .loadStr .retKey .returnKey,
    .getProperty .rfn .iter .retKey, .moveReg (.retBlock 0) .rfn, .moveReg (.retBlock 1) .iter,
    .moveReg (.retBlock 2) .ydst,
    .call (.retBlock 0) (.retBlock 0) (.retBlock 1) [.retBlock 2]] : List Instr) ++
  (if async then [.await .awaitedReturn (.retBlock 0) false,
    .moveReg (.retBlock 0) .awaitedReturn] else [] : List Instr) ++
  ([.loadStr .retValueKey .value, .getProperty .rvalue (.retBlock 0) .retValueKey, .finallyCopies,
    .returns .rvalue, .bind .resumeOk] : List Instr)

/-- Up to the first call of `next`: without an argument, or with `undefined`. -/
def startCode (async : Bool) : List Instr :=
  ([.loadStr .nextKey .next, .loadStr .doneKey .done, .loadStr .valueKey .value,
    .getProperty .nextFn .iter .nextKey] : List Instr) ++
  (if async then [.loadUndefined (.block 2)] else [] : List Instr) ++
  ([.moveReg (.block 0) .nextFn, .moveReg (.block 1) .iter,
    .call (.block 0) (.block 0) (.block 1) (if async then [.block 2] else []),
    .moveReg .result (.block 0)] : List Instr) ++
  (if async then [.await .awaitedResult .result false,
    .moveReg .result .awaitedResult] else [] : List Instr)

/-- From `process_result` up to the suspension. -/
def processCode (async : Bool) : List Instr :=
  ([.bind .processResult, .getProperty .doneVal .result .doneKey, .jumpIfTrue .doneVal .loopEnd,
    .getProperty .yielded .result .valueKey] : List Instr) ++
  (if async then [.await .awaitedYield .yielded true,
    .moveReg .yielded .awaitedYield] else [] : List Instr) ++
  ([.moveReg .ydst .yielded, .suspendYield .ydst] : List Instr)

def forwardCode (async : Bool) : List Instr :=
  (if async then [.await .awaitedResume .ydst false,
    .moveReg .ydst .awaitedResume] else [] : List Instr) ++
  delegateReturnPath async ++
  ([.getProperty (.fwdBlock 0) .iter .nextKey, .moveReg (.fwdBlock 1) .iter,
    .moveReg (.fwdBlock 2) .ydst, .call (.fwdBlock 0) (.fwdBlock 0) (.fwdBlock 1) [.fwdBlock 2],
    .moveReg .result (.fwdBlock 0)] : List Instr) ++
  (if async then [.await .awaitedResult .result false,
    .moveReg .result .awaitedResult] else [] : List Instr) ++
  ([.jump .processResult, .bind .loopEnd, .getProperty .ret .result .valueKey] : List Instr)

/-- The delegate arm from `iter_ready` to its value in `ret`. -/
def delegateCode (async : Bool) : List Instr :=
  startCode async ++ processCode async ++ forwardCode async

def target (async : Bool) (label : Label) : Nat := (delegateCode async).idxOf (.bind label)

def resumePc (async : Bool) : Nat := (startCode async ++ processCode async).length

/-! ## §3 Running it -/

/-- The contents of a register. -/
inductive Word (V : Type) where
  | undefined
  | user (v : V)
  | key (k : Key)
  | iter
  | nextMethod
  | returnMethod
  | result (r : IterResult V)
  | flag (b : Bool)
  deriving DecidableEq, Repr

variable {σ V : Type} [Inhabited V]

/-- A word as a JavaScript value; `default` is `undefined`. -/
def Word.toValue : Word V → V
  | .user v => v
  | _ => default

def Word.truthy : Word V → Bool
  | .flag b => b
  | _ => false

structure Config (σ V : Type) where
  pc : Nat
  regs : Reg → Word V
  inner : σ
  calls : List (InnerCall V)
  /-- `properties[5]`: a return completion was injected. -/
  mode : Bool

inductive Next (σ V : Type) where
  | going (c : Config σ V)
  | stopped (c : Config σ V) (response : Response V)

namespace Config

def set (c : Config σ V) (dst : Reg) (w : Word V) : Config σ V :=
  { c with pc := c.pc + 1, regs := fun r => if r = dst then w else c.regs r }

/-- `GetProperty` on the iterator and on a result. -/
def getProperty (inner : Inner σ V) : Word V → Word V → Except (Thrown V) (Word V)
  | .iter, .key .next => .ok .nextMethod
  | .iter, .key .returnKey => .ok (if inner.returnMethod.isSome then .returnMethod else .undefined)
  | .result (.object done _), .key .done => .ok (.flag done)
  | .result (.object _ value), .key .value => .ok (.user value)
  | .result .nullish, _ => .error .typeError
  | _, _ => .ok .undefined

/-- A call of a method of the iterator; anything else is not callable. -/
def callMethod (inner : Inner σ V) (c : Config σ V) (dst : Reg) (fn : Word V) (v : V) : Next σ V :=
  let after (call : InnerCall V) (method : Method σ V) : Next σ V :=
    let r := method c.inner v
    let c' := { c with inner := r.1, calls := c.calls ++ [call] }
    match r.2 with
    | .ok result => .going (c'.set dst (.result result))
    | .error e => .stopped c' (.threw (.value e))
  match fn, inner.returnMethod with
  | .nextMethod, _ => after (.next v) inner.next
  | .returnMethod, some method => after (.returns v) method
  | _, _ => .stopped c (.threw .typeError)

/-- `Await`: the results of calls are awaited ones already, and the await of a
yielded value is skipped unless the iterator came from a sync one, where it is
part of that iterator's `next`. -/
def await (kind : GenKind V) (c : Config σ V) (dst src : Reg) (value : Bool) : Next σ V :=
  match value, c.regs src with
  | false, .user v =>
    match kind.await v with
    | .ok w => .going (c.set dst (.user w))
    | .error e => .stopped c (.threw (.value e))
  | _, w => .going (c.set dst w)

def step (kind : GenKind V) (inner : Inner σ V) (c : Config σ V) : Next σ V :=
  match (delegateCode kind.isAsync)[c.pc]? with
  | none => .stopped c (.completed (c.regs .ret).toValue)
  | some (.loadStr dst key) => .going (c.set dst (.key key))
  | some (.loadUndefined dst) => .going (c.set dst .undefined)
  | some (.getProperty dst obj key) =>
    match getProperty inner (c.regs obj) (c.regs key) with
    | .ok w => .going (c.set dst w)
    | .error e => .stopped c (.threw e)
  | some (.moveReg dst src) => .going (c.set dst (c.regs src))
  | some (.call dst fn _ args) =>
    c.callMethod inner dst (c.regs fn) ((args.head?.map fun r => (c.regs r).toValue).getD default)
  | some (.await dst src value) => c.await kind dst src value
  | some (.jumpIfTrue cond label) =>
    .going { c with pc := if (c.regs cond).truthy then target kind.isAsync label else c.pc + 1 }
  | some (.jumpIfFalse cond label) =>
    .going { c with pc := if (c.regs cond).truthy then c.pc + 1 else target kind.isAsync label }
  | some (.jump label) => .going { c with pc := target kind.isAsync label }
  | some (.suspendYield src) =>
    .stopped { c with pc := c.pc + 1 } (.yielded (c.regs src).toValue)
  | some (.genResumeMode dst) => .going (c.set dst (.flag c.mode))
  | some .finallyCopies => .going { c with pc := c.pc + 1 }
  | some (.returns src) => .stopped c (.returned (c.regs src).toValue)
  | some (.bind _) => .going { c with pc := c.pc + 1 }

/-- At most `n` instructions. -/
def run (kind : GenKind V) (inner : Inner σ V) : Nat → Config σ V → Next σ V
  | 0, c => .going c
  | n + 1, c =>
    match c.step kind inner with
    | .going c' => run kind inner n c'
    | .stopped c' response => .stopped c' response

end Config

def codeFuel : Nat := 64

/-- The delegation is entered with the iterator in its register. The mode is the outer
generator's: still set when a `return` request led to this `yield*`, from a
finalizer or past a `catch`, as only completion clears it. -/
def Config.start (mode : Bool) (s : σ) : Config σ V where
  pc := 0
  regs r := if r = .iter then .iter else .undefined
  inner := s
  calls := []
  mode

/-- `resume_generator` at the delegating yield: a `throw` unwinds from it, past this
code's end; `next` and `return` store the value and go on, `return` with the
resume mode set. -/
def Config.resume (kind : GenKind V) (inner : Inner σ V) (c : Config σ V) :
    Request V → Next σ V
  | .next v =>
    run kind inner codeFuel
      { c with regs := fun r => if r = .ydst then .user v else c.regs r, calls := [] }
  | .returns v =>
    run kind inner codeFuel
      { c with regs := fun r => if r = .ydst then .user v else c.regs r, mode := true, calls := [] }
  | .throws e => .stopped { c with calls := [] } (.threw (.value e))

/-- What one request does: the calls the inner iterator receives, and the answer. -/
abbrev Exchange (V : Type) := List (InnerCall V) × Response V

/-- A run over requests; the ones after the delegation has ended do not reach it. -/
def Config.serve (kind : GenKind V) (inner : Inner σ V) :
    Next σ V → List (Request V) → List (Exchange V)
  | .going _, _ => []
  | .stopped c response, requests =>
    (c.calls, response) ::
      match response, requests with
      | .yielded _, request :: rest => serve kind inner (c.resume kind inner request) rest
      | _, _ => []

/-- **The exchanges of the compiled delegation.** -/
def compiled (kind : GenKind V) (inner : Inner σ V) (mode : Bool) (s : σ)
    (requests : List (Request V)) : List (Exchange V) :=
  Config.serve kind inner (Config.run kind inner codeFuel (.start mode s)) requests

/-! ## §4 What the language says -/

/-- The answer to a result of an inner method, `ended` being the completion of a
done one. -/
def answer (ended : V → Response V) : Except V (IterResult V) → Response V
  | .error e => .threw (.value e)
  | .ok (.object false value) => .yielded value
  | .ok (.object true value) => ended value
  | .ok .nullish | .ok .primitive => .threw .typeError

def forwarded (method : Method σ V) (call : InnerCall V) (ended : V → Response V) (s : σ) (v : V) :
    σ × Exchange V :=
  ((method s v).1, [call], answer ended (method s v).2)

/-- A throw completion received: forwarded, or the iterator is closed and the
protocol violation is a `TypeError`. -/
def specThrow (inner : Inner σ V) (s : σ) (e : V) : σ × Exchange V :=
  match inner.throwMethod, inner.returnMethod with
  | some method, _ => forwarded method (.throws e) .completed s e
  | none, some close =>
    ((close s default).1, [.close],
      match (close s default).2 with
      | .error e => .threw (.value e)
      | .ok _ => .threw .typeError)
  | none, none => (s, [], .threw .typeError)

def specReturn (kind : GenKind V) (inner : Inner σ V) (s : σ) (v : V) : σ × Exchange V :=
  match inner.returnMethod with
  | some method => forwarded method (.returns v) .returned s v
  | none =>
    (s, [],
      match kind.await v with
      | .ok w => .returned w
      | .error e => .threw (.value e))

/-- One request at a `yield*`; an async generator awaits the value of a return
request, and a rejection arrives as a throw. -/
def specResume (kind : GenKind V) (inner : Inner σ V) (s : σ) : Request V → σ × Exchange V
  | .next v => forwarded inner.next (.next v) .completed s v
  | .throws e => specThrow inner s e
  | .returns v =>
    match kind.await v with
    | .ok w => specReturn kind inner s w
    | .error e => specThrow inner s e

/-- A run over requests by what one of them does, from the state and exchange of the last
one. -/
def serveWith (resume : σ → Request V → σ × Exchange V) :
    σ × Exchange V → List (Request V) → List (Exchange V)
  | (s, exchange), requests =>
    exchange ::
      match exchange.2, requests with
      | .yielded _, request :: rest => serveWith resume (resume s request) rest
      | _, _ => []

/-- **The exchanges of `yield*`.** -/
def Delegation (kind : GenKind V) (inner : Inner σ V) (s : σ) (requests : List (Request V)) :
    List (Exchange V) :=
  serveWith (specResume kind inner) (forwarded inner.next (.next default) .completed s default)
    requests

end V12.Delegate
