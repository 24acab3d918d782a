/-
V12.Interp.AsyncGenerator — the request queue of an async generator, from
`v12-interp/src/generator_async.rs`, with what the `SuspendYield` and `Await` arms of
`execute.rs` do to its flags.

A run is a list of labels in any order: requests from anywhere, what the running body
does next, the settlement of what it awaits, and the passes of the drain loops. A running
body is an entry of `control`, and so is the drain loop behind it.
-/
import V12.Lib.Run

namespace V12.AsyncGen

/-! ## §1 Requests and the generator -/

/-- `ASYNC_GEN_REQUEST_NEXT`, `…_THROW` and `…_RETURN`. -/
inductive Kind where
  | next
  | throws
  | returns
  deriving DecidableEq, Repr

variable (V : Type)

/-- An entry of the queue; the id numbers the requests as they arrive, and stands for the
promise. -/
structure Request where
  id : Nat
  kind : Kind
  value : V
  deriving DecidableEq, Repr

/-- What the body sees when it is resumed. -/
inductive Given where
  | start
  | value (v : V)
  | returns (v : V)
  | throws (e : V)
  deriving DecidableEq, Repr

/-- What a promise is settled with: an iterator result or a rejection. -/
inductive Outcome where
  | yielded (v : V)
  | finished (v : V)
  | rejected (e : V)
  deriving DecidableEq, Repr

/-- A settlement, with the request whose resumption of the body ended in it. -/
structure Settled where
  request : Request V
  outcome : Outcome V
  cause : Option Nat
  deriving DecidableEq, Repr

/-- A resumption of the body for a request, or behind an await: whether the body had never run,
and whether it was running, parked for another request, or completed. -/
structure Resumption where
  request : Option (Request V)
  given : Given V
  fresh : Bool
  busy : Bool
  done : Bool
  deriving DecidableEq, Repr

/-- An active `resume_generator`: its body runs, or it is in the drain loop. -/
inductive Control where
  | body
  | drain (budget : Nat)
  deriving DecidableEq, Repr

/-- The slots of the generator, whether one of `pending_awaits` is its own, and the nested
resumptions of others. The last four are records; the code has none. -/
structure State where
  queue : List (Request V)
  done : Bool
  executing : Bool
  yielded : Bool
  mode : Bool
  returnValue : Option V
  started : Bool
  awaiting : Bool
  control : List Control
  otherDepth : Nat
  derailed : Bool
  arrived : Nat
  settled : List (Settled V)
  resumed : List (Resumption V)
  inFlight : Option Nat
  deriving DecidableEq

variable {V}

/-- `MAX_RESUME_DEPTH`. -/
def maxResumeDepth : Nat := 64

def State.empty : State V where
  queue := []
  done := false
  executing := false
  yielded := false
  mode := false
  returnValue := none
  started := false
  awaiting := false
  control := []
  otherDepth := 0
  derailed := false
  arrived := 0
  settled := []
  resumed := []
  inFlight := none

/-- `resume_depth`. -/
def State.resumeDepth (s : State V) : Nat := s.otherDepth + s.control.length

def State.running (s : State V) : Bool := s.control.contains .body

def State.draining (s : State V) : Bool :=
  match s.control with
  | .drain _ :: _ => true
  | _ => false

/-! ## §2 Settling -/

/-- `drain_completed_async_gen_requests`. -/
def State.drainCompleted (undefined : V) (s : State V) : State V :=
  { s with
    queue := []
    settled := s.settled ++ s.queue.map fun r => ⟨r, .finished undefined, none⟩ }

/-- `settle_async_gen_request_slot`. -/
def State.settleSlot (undefined : V) (s : State V) (suspended : Bool) (value : V) (reject : Bool) :
    State V :=
  if suspended && !reject && !s.yielded then s
  else
    match s.queue with
    | [] => s
    | r :: rest =>
      let outcome :=
        if reject then .rejected value
        else if suspended then .yielded value
        else .finished value
      let s := { s with queue := rest, settled := s.settled ++ [⟨r, outcome, s.inFlight⟩] }
      if reject || !suspended then s.drainCompleted undefined else s

/-! ## §3 Resuming -/

/-- `resume_generator` up to the first instruction of the body. -/
def State.resumeGenerator (s : State V) (request : Option (Request V)) (given : Given V)
    (busy : Bool) : State V :=
  if maxResumeDepth ≤ s.resumeDepth then s
  else
    { s with
      executing := true
      started := true
      control := .body :: s.control
      resumed := s.resumed ++ [⟨request, given, !s.started, busy, s.done⟩]
      inFlight := (request.map Request.id).or s.inFlight }

/-- `resume_async_gen_head_request`. The pending mode is read behind each yield; a body that
never ran reads none. -/
def State.resumeHead (s : State V) : State V :=
  match s.queue with
  | [] => s
  | r :: _ =>
    let s :=
      if r.kind = .returns then { s with mode := true, returnValue := some r.value } else s
    let given : Given V :=
      if r.kind = .throws then .throws r.value
      else if !s.started then .start
      else if s.mode then .returns (s.returnValue.getD r.value)
      else .value r.value
    s.resumeGenerator (some r) given (s.running || s.awaiting)

/-! ## §4 Labels -/

variable (V) in
inductive Label where
  /-- `next`, `throw` or `return` is called. -/
  | request (kind : Kind) (value : V)
  /-- The running body yields, awaits, returns or throws. An await may take the frame for an
  async function's (the lookup is by the wrong program), with a frame below or none. -/
  | yields (v : V)
  | awaits (v : V) (looksAsync below : Bool)
  | returns (v : V)
  | throws (e : V)
  /-- The pending await of the body is resumed. -/
  | awaitSettles (given : Given V)
  /-- The drain loop on top makes its next pass. -/
  | drainPass
  /-- Resumptions of others come and go. -/
  | depth (n : Nat)

/-- What a completed generator answers, from the `done` branches of `generator_next`,
`generator_return` and `generator_throw`. -/
def completedOutcome (undefined : V) (r : Request V) : Outcome V :=
  match r.kind with
  | .next => .finished undefined
  | .returns => .finished r.value
  | .throws => .rejected r.value

/-- `apply_async_gen_request` and the callers' `done` branches. -/
def request (undefined : V) (s : State V) (kind : Kind) (value : V) : State V :=
  if s.draining then s
  else
    let r : Request V := ⟨s.arrived, kind, value⟩
    let s := { s with arrived := s.arrived + 1 }
    if s.done then
      { s with settled := s.settled ++ [⟨r, completedOutcome undefined r, none⟩] }
    else
      let s := { s with queue := s.queue ++ [r] }
      if s.executing then s else s.resumeHead

/-- The body's frame is gone; `drain_async_gen_request_queue` starts. -/
def State.toDrain (s : State V) (rest : List Control) : State V :=
  { s with control := .drain (s.queue.length + 1) :: rest }

def step (undefined : V) (s : State V) : Label V → State V
  | .request kind value => request undefined s kind value
  | .yields v =>
    match s.control with
    | .body :: rest =>
      ({ s with yielded := true, executing := false }.settleSlot undefined true v false).toDrain rest
    | _ => s
  | .awaits v looksAsync below =>
    match s.control with
    | .body :: rest =>
      -- The loop of the nested run goes on in the frame below.
      if looksAsync && below then { s with derailed := true }
      else
        let s := if looksAsync then s else { s with yielded := false, executing := true }
        ({ s with awaiting := true }.settleSlot undefined true v false).toDrain rest
    | _ => s
  | .returns v =>
    match s.control with
    | .body :: rest =>
      ({ s with executing := false, mode := false, returnValue := none, done := true }.settleSlot
        undefined false v false).toDrain rest
    | _ => s
  | .throws e =>
    match s.control with
    | .body :: rest =>
      { s with executing := false, done := true, control := rest }.settleSlot undefined false e true
    | _ => s
  | .awaitSettles given =>
    if s.awaiting && !s.draining then
      { s with awaiting := false }.resumeGenerator none given s.running
    else s
  | .drainPass =>
    match s.control with
    | .drain budget :: rest =>
      if budget = 0 ∨ s.yielded = false ∨ s.queue = [] then { s with control := rest }
      else { s with control := .drain (budget - 1) :: rest }.resumeHead
    | _ => s
  | .depth n => { s with otherDepth := n }

/-! ## §5 What should hold -/

def Request.own (r : Request V) (fresh : Bool) : Given V :=
  match r.kind with
  | .next => if fresh then .start else .value r.value
  | .returns => .returns r.value
  | .throws => .throws r.value

structure Fine (undefined : V) (s : State V) : Prop where
  /-- Every request that arrived is settled once or waits, in the order of arrival. -/
  order : s.settled.map (fun e => e.request.id) ++ s.queue.map Request.id = List.range s.arrived
  /-- It is settled by its own resumption, or as a completed generator answers it. -/
  own : ∀ e ∈ s.settled, match e.cause with
    | some id => id = e.request.id
    | none => e.outcome = completedOutcome undefined e.request
  /-- The body is resumed with the request's own completion, not while it is busy and not once
  it is completed. -/
  resumed : ∀ e ∈ s.resumed, e.busy = false ∧ e.done = false ∧
    ∀ r, e.request = some r → e.given = r.own e.fresh
  /-- The request whose resumption is at an await is not settled. -/
  parked : s.awaiting → s.queue.head?.map Request.id = s.inFlight
  /-- A request waits only for a body that runs, a drain loop or an await. -/
  driven : s.queue ≠ [] → s.control ≠ [] ∨ s.awaiting
  completed : s.done → s.queue = []
  /-- Suspending gives control back to the call that resumed the body. -/
  returned : s.derailed = false

end V12.AsyncGen
