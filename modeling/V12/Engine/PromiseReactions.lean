/-
V12.Engine.PromiseReactions — the reactions of promises and the jobs they become,
from `install_then_record`, `promise_watch_finally`, `push_record`,
`drain_reaction_jobs`, `settle`, `settle_sync` and `reaction_job` of
`v12-engine/src/builtins/promise.rs`, over the microtask queue.

A run is a list of labels in any order: what code does to promises and to the queue,
and the two calls of a reaction job, of its handler and of its capability.
-/
import V12.Engine.JobQueueTheorems

namespace V12.Reactions

/-! ## §1 Records and jobs -/

/-- `[[State]]` and `[[Result]]` of a settled promise. -/
structure Settlement (V : Type) where
  rejecting : Bool
  value : V
  deriving DecidableEq, Repr

/-- A reaction record: slots 0 to 2, and slots 3 and 4 when it has five. The number is the
reaction's place among all that were ever registered; the code has none. -/
structure Record (V : Type) where
  id : Nat
  fulfill : V
  reject : V
  derived : V
  capability : Option (V × V)
  deriving DecidableEq, Repr

/-- The closure of `reaction_job`, with the promise and the reaction it came from; `own` when
its capability is the record's own slots 0 and 1. -/
structure ReactionJob (V : Type) where
  promise : V
  id : Nat
  handler : V
  payload : V
  derived : V
  capability : V × V
  rejecting : Bool
  own : Bool
  deriving DecidableEq, Repr

/-- A job made by a native: a reaction's, the one `finally` makes on a settled promise, or
any other. -/
inductive Made (V : Type) where
  | reaction (job : ReactionJob V)
  | finallySettle (promise : V) (id : Nat) (onFinally resolve reject : V) (outcome : Settlement V)
  | other (k : V)
  deriving DecidableEq, Repr

/-- The slots of a promise; `none` is pending. -/
structure PromiseSlots (V : Type) where
  state : Option (Settlement V)
  reactions : List (Record V)
  deriving DecidableEq, Repr

/-- A call that a job makes for a reaction, of one of the functions the reaction was
registered with (`own`) or of its capability. -/
structure Call (V : Type) where
  promise : V
  id : Nat
  fn : V
  arg : V
  rejecting : Bool
  own : Bool
  deriving DecidableEq, Repr

/-- Promises by their handles, the queue, and the reaction job that runs. `registered` and
`calls` record the registrations and the calls made. -/
structure State (V : Type) where
  promises : V → PromiseSlots V
  queue : Jobs.State Unit (Made V) V
  running : Option (ReactionJob V)
  registered : List (V × Nat)
  calls : List (Call V)

variable {V : Type} [DecidableEq V]

def State.empty : State V where
  promises _ := ⟨none, []⟩
  queue := .empty ()
  running := none
  registered := []
  calls := []

/-! ## §2 What the code does -/

/-- The job queue seen from here: jobs do nothing to it while they run, and a made job pins
what `pin_job_captures` and its siblings pin. -/
def queueHost : Jobs.Host Unit (Made V) V where
  run _ _ := ((), [])
  deadline _ := false
  captures
    | .reaction job => [job.handler, job.payload, job.derived, job.capability.1, job.capability.2]
    | .finallySettle _ _ onFinally resolve reject outcome =>
      [onFinally, resolve, reject, outcome.value]
    | .other k => [k]
  held _ _ := false

def State.setPromise (s : State V) (p : V) (slots : PromiseSlots V) : State V :=
  { s with promises := fun q => if q = p then slots else s.promises q }

def State.push (s : State V) (job : Made V) : State V :=
  { s with queue := s.queue.request queueHost (.push job) }

def State.register (s : State V) (p : V) : State V :=
  { s with registered := s.registered ++ [(p, s.registered.length)] }

/-- `reaction_job` of a record, as `drain_reaction_jobs` builds it: a record of three slots
has its own pair for a capability. -/
def Record.job (promise : V) (outcome : Settlement V) (r : Record V) : ReactionJob V where
  promise
  id := r.id
  handler := if outcome.rejecting then r.reject else r.fulfill
  payload := outcome.value
  derived := r.derived
  capability := r.capability.getD (r.fulfill, r.reject)
  rejecting := outcome.rejecting
  own := r.capability.isNone

/-- `install_then_record`. -/
def installThenRecord (s : State V) (p fulfill reject derived : V) (capability : V × V) : State V :=
  let record : Record V := ⟨s.registered.length, fulfill, reject, derived, some capability⟩
  match (s.promises p).state with
  | none =>
    (s.register p).setPromise p ⟨none, (s.promises p).reactions ++ [record]⟩
  | some outcome => (s.register p).push (.reaction (record.job p outcome))

/-- `push_record`, and the adoption record of `settle_with_adoption`: three slots, on a
pending promise. -/
def pushRecord (s : State V) (p fulfill reject derived : V) : State V :=
  match (s.promises p).state with
  | none =>
    (s.register p).setPromise p
      ⟨none, (s.promises p).reactions ++ [⟨s.registered.length, fulfill, reject, derived, none⟩]⟩
  | some _ => s

/-- `promise_watch_finally`, with the watchers it allocates on a pending promise. -/
def promiseWatchFinally (s : State V) (p onFinally resolve reject fulfill rejection dummy : V) :
    State V :=
  match (s.promises p).state with
  | none => pushRecord s p fulfill rejection dummy
  | some outcome =>
    (s.register p).push (.finallySettle p s.registered.length onFinally resolve reject outcome)

/-- `drain_reaction_jobs`. -/
def drainReactionJobs (s : State V) (p : V) (outcome : Settlement V) : List (Made V) :=
  (s.promises p).reactions.map fun r => .reaction (r.job p outcome)

/-- `settle_sync`, and the ends of `settle_with_adoption`: a pending promise settles, and its
jobs extend the sink. -/
def settleSync (s : State V) (p : V) (outcome : Settlement V) : State V :=
  match (s.promises p).state with
  | none =>
    (drainReactionJobs s p outcome).foldl State.push (s.setPromise p ⟨some outcome, []⟩)
  | some _ => s

/-- `settle`, from a job: no look at the state, and the jobs go through `JobCtx::enqueue`. -/
def settle (s : State V) (p : V) (outcome : Settlement V) : State V :=
  (drainReactionJobs s p outcome).foldl
    (fun s job => { s with queue := s.queue.request queueHost (.enqueue job) })
    (s.setPromise p ⟨some outcome, []⟩)

/-- A round of the drain takes the next job. A reaction job calls its handler with the
payload. -/
def pop (s : State V) : State V :=
  match s.running, (Jobs.flush s.queue).jobs with
  | none, entry :: rest =>
    let queue := { Jobs.flush s.queue with jobs := rest, ran := s.queue.ran ++ [entry.ticket] }
    match entry.item with
    | .made (.reaction job) =>
      { s with
        queue
        running := some job
        calls := s.calls ++
          [⟨job.promise, job.id, job.handler, job.payload, job.rejecting, true⟩] }
    | .made (.finallySettle p id onFinally _ _ outcome) =>
      { s with queue, calls := s.calls ++ [⟨p, id, onFinally, outcome.value, outcome.rejecting, true⟩] }
    | _ => { s with queue }
  | _, _ => s

/-- The rest of `reaction_job`: the handler's result goes to a half of the capability. -/
def finish (s : State V) (result : V) (threw : Bool) : State V :=
  match s.running with
  | none => s
  | some job =>
    let fn := if threw then job.capability.2 else job.capability.1
    { s with
      running := none
      calls := s.calls ++ [⟨job.promise, job.id, fn, result, threw, job.own⟩] }

/-- What can happen. -/
inductive Label (V : Type) where
  | installThen (p fulfill reject derived : V) (capability : V × V)
  | watchFinally (p onFinally resolve reject fulfill rejection dummy : V)
  | pushRecord (p fulfill reject derived : V)
  | settleSync (p : V) (outcome : Settlement V)
  | settle (p : V) (outcome : Settlement V)
  | push (k : V)
  | enqueue (k : V)
  | adopt (a : Jobs.Adoption V)
  | followUps
  | pop
  | finish (result : V) (threw : Bool)
  | drainEnds

def step (s : State V) : Label V → State V
  | .installThen p fulfill reject derived capability =>
    installThenRecord s p fulfill reject derived capability
  | .watchFinally p onFinally resolve reject fulfill rejection dummy =>
    promiseWatchFinally s p onFinally resolve reject fulfill rejection dummy
  | .pushRecord p fulfill reject derived => pushRecord s p fulfill reject derived
  | .settleSync p outcome => settleSync s p outcome
  | .settle p outcome => settle s p outcome
  | .push k => s.push (.other k)
  | .enqueue k => { s with queue := s.queue.request queueHost (.enqueue (.other k)) }
  | .adopt a => { s with queue := s.queue.request queueHost (.adopt a) }
  | .followUps => { s with queue := Jobs.adoptFollowUps s.queue }
  | .pop => pop s
  | .finish result threw => finish s result threw
  | .drainEnds => { s with queue := Jobs.clearPendingAdoptions s.queue }

/-! ## §3 What should happen -/

/-- The reaction of a call or of a queued job, with the argument and the state. -/
abbrev Run (V : Type) := Nat × V × Bool

def State.registeredOn (s : State V) (p : V) : List Nat :=
  s.registered.filterMap fun r => if r.1 = p then some r.2 else none

def State.runsOf (s : State V) (p : V) : List (Run V) :=
  s.calls.filterMap fun c =>
    if c.own = true ∧ c.promise = p then some (c.id, c.arg, c.rejecting) else none

def runOf (p : V) : Jobs.Job (Made V) V → Option (Run V)
  | .made (.reaction job) =>
    if job.promise = p then some (job.id, job.payload, job.rejecting) else none
  | .made (.finallySettle q id _ _ _ outcome) =>
    if q = p then some (id, outcome.value, outcome.rejecting) else none
  | _ => none

def State.queuedOf (s : State V) (p : V) : List (Run V) :=
  (s.queue.jobs ++ s.queue.pending).filterMap fun e => runOf p e.item

/-- On a pending promise all registered reactions wait, in order; once it has settled, those
that ran and those queued are the registered ones, in order, with its settlement. -/
def OnceOf (slots : PromiseSlots V) (registered : List Nat) (runs queued : List (Run V)) : Prop :=
  match slots.state with
  | none => slots.reactions.map (·.id) = registered ∧ runs = [] ∧ queued = []
  | some outcome =>
    slots.reactions = [] ∧
      runs ++ queued = registered.map fun id => (id, outcome.value, outcome.rejecting)

instance decidableOnceOf (slots : PromiseSlots V) (registered : List Nat)
    (runs queued : List (Run V)) : Decidable (OnceOf slots registered runs queued) :=
  match slots with
  | ⟨none, reactions⟩ =>
    inferInstanceAs (Decidable (reactions.map (·.id) = registered ∧ runs = [] ∧ queued = []))
  | ⟨some outcome, reactions⟩ =>
    inferInstanceAs (Decidable (reactions = [] ∧
      runs ++ queued = registered.map fun id => (id, outcome.value, outcome.rejecting)))

/-- **Each reaction of the promise once.** -/
def Once (s : State V) (p : V) : Prop :=
  OnceOf (s.promises p) (s.registeredOn p) (s.runsOf p) (s.queuedOf p)

instance decidableOnce (s : State V) (p : V) : Decidable (Once s p) :=
  inferInstanceAs (Decidable (OnceOf _ _ _ _))

end V12.Reactions
