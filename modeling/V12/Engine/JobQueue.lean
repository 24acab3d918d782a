/-
V12.Engine.JobQueue — the microtask queue, from `v12-engine/src/job_queue.rs`, with
the adoption requests of `v12-interp/src/generator_async.rs` and the follow-ups of
`v12-engine/src/engine/eval.rs`.

What a job does is a parameter. Each job and each adoption has a ticket, its place
among all that were ever requested; the code has no such number.
-/
import V12.Lib.Run
import V12.Lib.Tickets

namespace V12.Jobs

/-! ## §1 Jobs and requests -/

/-- `MAX_QUEUE_LEN`. -/
def maxQueueLen : Nat := 10000

/-- An entry of `pending_adoptions`. -/
structure Adoption (V : Type) where
  promise : V
  thenable : V
  thenV : V
  abrupt : Bool
  deriving DecidableEq, Repr

/-- A job of the queue: one a native or the host made, or `thenable_job`. -/
inductive Job (J V : Type) where
  | made (j : J)
  | thenable (a : Adoption V)
  deriving DecidableEq, Repr

/-- A request of a running job or of the program. -/
inductive Request (J V : Type) where
  /-- `JobCtx::enqueue`. -/
  | enqueue (j : J)
  /-- A native pushes to the sink. -/
  | push (j : J)
  /-- `push_pending_adoption`. -/
  | adopt (a : Adoption V)
  deriving DecidableEq, Repr

/-- What the queue takes from the rest of the engine. -/
structure Host (W J V : Type) where
  /-- Running a job. -/
  run : W → Job J V → W × List (Request J V)
  /-- `is_deadline_exceeded`. -/
  deadline : W → Bool
  /-- The values a made job captures; its maker pins them. -/
  captures : J → List V
  /-- The values the rest of the heap keeps alive. -/
  held : W → V → Bool

structure Entry (α : Type) where
  ticket : Nat
  item : α
  deriving DecidableEq, Repr

/-- The queue, the sink of follow-ups, the adoption requests with the drain's cursor, and the
pinned values. `ran` and `requests` record the tickets of the jobs run and the number of
requests made. -/
structure State (W J V : Type) where
  world : W
  jobs : List (Entry (Job J V))
  pending : List (Entry (Job J V))
  pendingAdoptions : List (Entry (Adoption V))
  adoptionCursor : Nat
  pinned : List V
  ran : List Nat
  requests : Nat

variable {W J V : Type}

def State.empty (world : W) : State W J V := ⟨world, [], [], [], 0, [], [], 0⟩

def State.make (host : Host W J V) (s : State W J V) (j : J) : State W J V × Entry (Job J V) :=
  ({ s with pinned := s.pinned ++ host.captures j, requests := s.requests + 1 },
    ⟨s.requests, .made j⟩)

/-- One request; `enqueue` refuses when the sink is full. -/
def State.request (host : Host W J V) (s : State W J V) : Request J V → State W J V
  | .enqueue j =>
    let r := s.make host j
    if s.pending.length ≥ maxQueueLen then r.1 else { r.1 with pending := s.pending ++ [r.2] }
  | .push j =>
    let r := s.make host j
    { r.1 with pending := s.pending ++ [r.2] }
  | .adopt a =>
    { s with
      pendingAdoptions := s.pendingAdoptions ++ [⟨s.requests, a⟩]
      requests := s.requests + 1 }

/-! ## §2 The queue -/

/-- `JobQueue::enqueue`; `false` when the queue is full. -/
def enqueue (s : State W J V) (entry : Entry (Job J V)) : State W J V × Bool :=
  if s.jobs.length ≥ maxQueueLen then (s, false) else ({ s with jobs := s.jobs ++ [entry] }, true)

def State.unconverted (s : State W J V) : List (Entry (Adoption V)) :=
  s.pendingAdoptions.drop s.adoptionCursor

/-- The first half of a round of the drain: a job for each new adoption request, its promise
and thenable pinned; then the sink joins the queue. -/
def flush (s : State W J V) : State W J V :=
  { s with
    jobs := s.jobs ++ s.pending ++ s.unconverted.map fun a => ⟨a.ticket, .thenable a.item⟩
    pending := []
    adoptionCursor := s.pendingAdoptions.length
    pinned := s.pinned ++ s.unconverted.flatMap fun a => [a.item.promise, a.item.thenable] }

def runJob (host : Host W J V) (s : State W J V) (entry : Entry (Job J V))
    (rest : List (Entry (Job J V))) : State W J V :=
  let r := host.run s.world entry.item
  r.2.foldl (State.request host)
    { s with world := r.1, jobs := rest, ran := s.ran ++ [entry.ticket] }

/-- The loop of `drain` with the jobs it may still run; `true` when it stops early. -/
def drainLoop (host : Host W J V) : Nat → State W J V → State W J V × Bool
  | 0, s => (s, true)
  | budget + 1, s =>
    match (flush s).jobs with
    | [] => (flush s, false)
    | entry :: rest =>
      let s' := runJob host (flush s) entry rest
      if host.deadline s'.world ∨ budget = 0 then (s', true) else drainLoop host budget s'

/-- `clear_pending_adoptions`. -/
def clearPendingAdoptions (s : State W J V) : State W J V :=
  { s with pendingAdoptions := [], adoptionCursor := 0 }

/-- `JobQueue::drain`: it gives up when the count exceeds twice the cap. -/
def drain (host : Host W J V) (s : State W J V) : State W J V × Bool :=
  let r := drainLoop host (2 * maxQueueLen + 1) s
  (clearPendingAdoptions r.1, r.2)

/-- The follow-ups a checkpoint takes from the sink before it drains. -/
def adoptFollowUps (s : State W J V) : State W J V :=
  s.pending.foldl (fun s entry => (enqueue s entry).1) { s with pending := [] }

/-- What happens to the queue, step by step: the host enqueues, the program requests, a
checkpoint takes the follow-ups and drains. -/
inductive Op (J V : Type) where
  | enqueue (j : J)
  | request (r : Request J V)
  | followUps
  | drain
  deriving DecidableEq, Repr

def step (host : Host W J V) (s : State W J V) : Op J V → State W J V
  | .enqueue j => (enqueue (s.make host j).1 (s.make host j).2).1
  | .request r => s.request host r
  | .followUps => adoptFollowUps s
  | .drain => (drain host s).1

/-! ## §3 What the queue should be -/

/-- The tickets of what was run and of what is queued, in their order. -/
def State.tickets (s : State W J V) : List Nat :=
  s.ran ++ s.jobs.map (·.ticket) ++ s.pending.map (·.ticket) ++ s.unconverted.map (·.ticket)

def State.Rooted (host : Host W J V) (s : State W J V) (v : V) : Prop :=
  v ∈ s.pinned ∨ host.held s.world v = true ∨
    ∃ a ∈ s.pendingAdoptions, v = a.item.promise ∨ v = a.item.thenable ∨ v = a.item.thenV

def Job.values (host : Host W J V) : Job J V → List V
  | .made j => host.captures j
  | .thenable a => [a.promise, a.thenable, a.thenV]

/-- Everything requested was run or is still queued, once, in the order of the requests, and
what is queued is rooted. -/
structure InOrder (host : Host W J V) (s : State W J V) : Prop where
  tickets : s.tickets = List.range s.requests
  jobs : ∀ e ∈ s.jobs ++ s.pending, ∀ v ∈ e.item.values host, s.Rooted host v
  adoptions : ∀ a ∈ s.unconverted, ∀ v ∈ (Job.thenable (J := J) a.item).values host,
    s.Rooted host v

/-- What every step should do: everything stays in order, and a drain that does not stop
early leaves nothing. -/
structure Keeps (host : Host W J V) (s : State W J V) (op : Op J V) : Prop where
  inOrder : InOrder host (step host s op)
  returned : op = .drain → (drain host s).2 = false →
    (step host s op).tickets = (step host s op).ran

end V12.Jobs
