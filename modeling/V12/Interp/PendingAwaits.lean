/-
V12.Interp.PendingAwaits — the list of pending awaits and its drain, from
`run_jobs`, `await_resume_value` and `resume_next_await` of `v12-interp/src/lib.rs`.

What a resumed body does is a parameter: it settles promises, appends awaits, pushes
settlements, may exceed the deadline and may throw. A promise it settles changes
only while it is pending.
-/
import Mathlib.Logic.Relation
import Mathlib.Data.List.Perm.Basic

namespace V12.Awaits

/-! ## §1 Promises and awaits -/

/-- The `[state, payload]` slots of a promise. -/
inductive PromiseState (V : Type) where
  | pending
  | fulfilled (payload : V)
  | rejected (reason : V)
  deriving DecidableEq, Repr

/-- An entry of `pending_awaits`. The ticket is its place among all awaits that ever
entered the list; the code has no such number. -/
structure Await (G V : Type) where
  ticket : Nat
  gen : G
  value : V
  isReject : Bool
  deriving DecidableEq, Repr

/-- How a parked await proceeds. -/
inductive AwaitResume (V : Type) where
  | skip
  | adopt (payload : V)
  | run (value : V) (reject : Bool)
  deriving DecidableEq, Repr

/-- What a resumed body does until it suspends or ends. -/
structure Effects (W P G V : Type) where
  world : W
  settles : List (P × PromiseState V)
  awaits : List (G × V × Bool)
  settlements : List (P × V × Bool)
  deadline : Bool
  thrown : Option V

/-- What the drain takes from the rest of the interpreter. -/
structure Host (W P G V : Type) where
  /-- `is_promise`. -/
  asPromise : V → Option P
  /-- `resume_async` and `resume_async_throw`. -/
  resume : W → (P → PromiseState V) → G → V → Bool → Effects W P G V
  /-- The completion promise in slot 4. -/
  completion : W → G → Option P

variable {W P G V : Type} [DecidableEq P]

def settle (promises : P → PromiseState V) (s : P × PromiseState V) : P → PromiseState V :=
  fun p =>
    match promises p with
    | .pending => if p = s.1 then s.2 else .pending
    | settled => settled

/-- A resumption, with the world and the promises as they were at it. -/
structure Resumption (W P G V : Type) where
  ticket : Nat
  gen : G
  value : V
  reject : Bool
  world : W
  promises : P → PromiseState V

/-- The part of the interpreter the drain changes. `arrived` and `resumed` record the
awaits that ever entered the list and the resumptions made. -/
structure State (W P G V : Type) where
  world : W
  promises : P → PromiseState V
  pendingAwaits : List (Await G V)
  pendingSettlements : List (P × V × Bool)
  deadlineExceeded : Bool
  arrived : List (Await G V)
  resumed : List (Resumption W P G V)

/-! ## §2 The drain -/

/-- `await_resume_value`. -/
def awaitResumeValue (host : Host W P G V) (promises : P → PromiseState V) (val : V)
    (isReject : Bool) : AwaitResume V :=
  if isReject then .run val true
  else
    match host.asPromise val with
    | none => .run val false
    | some obj =>
      match promises obj with
      | .pending => .skip
      | .fulfilled payload =>
        if (host.asPromise payload).isSome then .adopt payload else .run payload false
      | .rejected reason => .run reason true

/-- `pending_awaits.push_back` of new awaits, one ticket each. -/
def State.append (s : State W P G V) (awaits : List (G × V × Bool)) : State W P G V :=
  let fresh := awaits.mapIdx fun i a => ⟨s.arrived.length + i, a.1, a.2.1, a.2.2⟩
  { s with pendingAwaits := s.pendingAwaits ++ fresh, arrived := s.arrived ++ fresh }

/-- The resumption of an await that left the list, and the settlement a throw queues;
`false` when there is no completion promise for it. -/
def State.resume (host : Host W P G V) (s : State W P G V) (await : Await G V) (value : V)
    (reject : Bool) : State W P G V × Bool :=
  let e := host.resume s.world s.promises await.gen value reject
  let s' : State W P G V :=
    { s with
      world := e.world
      promises := e.settles.foldl settle s.promises
      pendingSettlements := s.pendingSettlements ++ e.settlements
      deadlineExceeded := s.deadlineExceeded || e.deadline
      resumed := s.resumed ++ [⟨await.ticket, await.gen, value, reject, s.world, s.promises⟩] }
  let s' := s'.append e.awaits
  match e.thrown with
  | none => (s', !s'.deadlineExceeded)
  | some error =>
    match host.completion s'.world await.gen with
    | some promise =>
      ({ s' with pendingSettlements := s'.pendingSettlements ++ [(promise, error, true)] },
        !s'.deadlineExceeded)
    | none => (s', false)

/-- `resume_next_await`: `true` when a resume ran. -/
def resumeNextAwait (host : Host W P G V) (s : State W P G V) : State W P G V × Bool :=
  if s.deadlineExceeded then (s, false)
  else
    match s.pendingAwaits with
    | [] => (s, false)
    | await :: rest =>
      match awaitResumeValue host s.promises await.value await.isReject with
      | .skip => ({ s with pendingAwaits := rest ++ [await] }, false)
      | .adopt payload =>
        ({ s with pendingAwaits := rest ++ [{ await with value := payload, isReject := false }] },
          false)
      | .run value reject => State.resume host { s with pendingAwaits := rest } await value reject

/-- A pass: `attempts` tries, given up at the deadline or past 10,000 resumptions. -/
def tryAwaits (host : Host W P G V) (count : Nat) : Nat → Nat → State W P G V → State W P G V × Nat
  | 0, progressed, s => (s, progressed)
  | attempts + 1, progressed, s =>
    let r := resumeNextAwait host s
    let progressed := if r.2 then progressed + 1 else progressed
    if r.1.deadlineExceeded ∨ count + progressed > 10000 then (r.1, progressed)
    else tryAwaits host count attempts progressed r.1

/-- `run_jobs`, from the count it has reached. -/
def runJobs (host : Host W P G V) (count : Nat) (s : State W P G V) : State W P G V × Nat :=
  if s.pendingAwaits.isEmpty then (s, count)
  else
    let r := tryAwaits host count s.pendingAwaits.length 0 s
    if r.2 = 0 ∨ r.1.deadlineExceeded ∨ count + r.2 > 10000 then (r.1, count + r.2)
    else runJobs host (count + r.2) r.1
termination_by 10001 - count
decreasing_by
  rename_i h
  simp only [not_or] at h
  obtain ⟨hpos, -, hle⟩ := h
  change 10001 - (count + r.2) < 10001 - count
  omega

def State.start (world : W) (promises : P → PromiseState V) (deadline : Bool)
    (settlements : List (P × V × Bool)) (awaits : List (G × V × Bool)) : State W P G V :=
  State.append ⟨world, promises, [], settlements, deadline, [], []⟩ awaits

end V12.Awaits
