/-
V12.Engine.Resolving — the resolving functions of promises, from `make_capability`,
`settle_with_adoption`, `start_thenable_adoption`, `thenable_job`, `drain_reaction_jobs`
and `reaction_job` of `v12-engine/src/builtins/promise.rs`.

A run is a list of labels in any order: calls of resolving functions that code has in
hand, jobs, and changes of the heap that give an object a `then` or take it away. Of
reactions only adoption records are here.
-/
import Mathlib.Logic.Function.Basic
import V12.Lib.Run

namespace V12.Resolving

/-! ## §1 Values, pairs and jobs -/

/-- A value, as far as resolving looks at it. -/
inductive Value where
  | undefined
  | typeError
  | promise (p : Nat)
  | object (o : Nat)
  | other (n : Nat)
  deriving DecidableEq, Repr

/-- The state and the result of a settled promise. -/
inductive Outcome where
  | fulfilled (v : Value)
  | rejected (v : Value)
  deriving DecidableEq, Repr

/-- A queued job: the `reaction_job` of an adoption record, with the settlement, and
`thenable_job`, each with the pair of resolving functions it carries. -/
inductive Job where
  | adoption (pair : Nat) (outcome : Outcome)
  | thenable (pair obj : Nat)
  deriving DecidableEq, Repr

/-- What the first call of a pair gave its promise. -/
inductive First where
  | reject (e : Value)
  | plain (v : Value)
  | self
  | promise (q : Nat)
  | thenable (pair obj : Nat)
  deriving DecidableEq, Repr

/-- What `thenable_job` finds: reading `then` throws, it is not callable, or it is called with
the job's pair. A throw of the called `then` is a call of the pair's reject function. -/
inductive ThenOutcome where
  | threw (e : Value)
  | notCallable
  | called
  deriving DecidableEq, Repr

/-- Promises and pairs by number. `root` is the pair a promise was made with. `first` and
`thenOutcome` record what the first calls and the jobs were; the code has no such record. -/
structure State where
  promises : Nat
  state : Nat → Option Outcome
  reactions : Nat → List Nat
  root : Nat → Nat
  pairs : Nat
  promiseOf : Nat → Nat
  exposed : Nat → Bool
  hasThen : Nat → Bool
  jobs : List Job
  first : Nat → Option First
  thenOutcome : Nat → Option ThenOutcome

def State.empty : State where
  promises := 0
  state _ := none
  reactions _ := []
  root _ := 0
  pairs := 0
  promiseOf _ := 0
  exposed _ := false
  hasThen _ := false
  jobs := []
  first _ := none
  thenOutcome _ := none

/-! ## §2 What the code does -/

/-- The slots are written and `drain_reaction_jobs` makes a job of each record. -/
def State.settle (s : State) (p : Nat) (outcome : Outcome) : State :=
  { s with
    state := Function.update s.state p (some outcome)
    reactions := Function.update s.reactions p []
    jobs := s.jobs ++ (s.reactions p).map fun pair => .adoption pair outcome }

/-- `start_thenable_adoption`: a job with a new pair for the promise. -/
def State.startThenable (s : State) (p obj : Nat) : State :=
  { s with
    pairs := s.pairs + 1
    promiseOf := Function.update s.promiseOf s.pairs p
    jobs := s.jobs ++ [.thenable s.pairs obj] }

/-- `settle_with_adoption` for the promise of a pair. -/
def State.settleWithAdoption (s : State) (pair : Nat) (value : Value) (rejecting mayAdopt : Bool) :
    State :=
  let p := s.promiseOf pair
  match s.state p with
  | some _ => s
  | none =>
    if rejecting then s.settle p (.rejected value)
    else
      match value with
      | .promise q =>
        if q = p then s.settle p (.rejected .typeError)
        else
          match s.state q with
          | some outcome => s.settle p outcome
          | none => { s with reactions := Function.update s.reactions q (s.reactions q ++ [pair]) }
      | .object obj =>
        if mayAdopt && s.hasThen obj then s.startThenable p obj
        else s.settle p (.fulfilled (.object obj))
      | v => s.settle p (.fulfilled v)

def State.classify (s : State) (pair : Nat) (value : Value) (rejecting : Bool) : First :=
  if rejecting then .reject value
  else
    match value with
    | .promise q => if q = s.promiseOf pair then .self else .promise q
    | .object obj => if s.hasThen obj then .thenable s.pairs obj else .plain (.object obj)
    | v => .plain v

inductive Label where
  /-- `new Promise` and the other makers of a promise with its pair. -/
  | newPromise
  /-- A call of the resolve or the reject function of a pair that code has in hand. -/
  | call (pair : Nat) (value : Value) (rejecting : Bool)
  /-- A queued job runs; the outcome is that of a thenable job. -/
  | run (i : Nat) (outcome : ThenOutcome)
  /-- The heap changes. -/
  | heap (hasThen : Nat → Bool)

def State.Known (s : State) : Value → Prop
  | .promise q => q < s.promises
  | _ => True

instance (s : State) (v : Value) : Decidable (s.Known v) :=
  match v with
  | .promise q => inferInstanceAs (Decidable (q < s.promises))
  | .undefined | .typeError | .object _ | .other _ => isTrue trivial

def newPromise (s : State) : State :=
  { s with
    promises := s.promises + 1
    root := Function.update s.root s.promises s.pairs
    pairs := s.pairs + 1
    promiseOf := Function.update s.promiseOf s.pairs s.promises
    exposed := Function.update s.exposed s.pairs true }

/-- The closures of `make_capability`. -/
def call (s : State) (pair : Nat) (value : Value) (rejecting : Bool) : State :=
  if s.exposed pair = true ∧ s.Known value then
    let s' := s.settleWithAdoption pair value rejecting true
    match s.first pair with
    | none =>
      { s' with first := Function.update s.first pair (some (s.classify pair value rejecting)) }
    | some _ => s'
  else s

/-- `reaction_job` of an adoption record: it calls the function for the settlement, and then,
its capability being the same pair, resolve again with what that returned. -/
def runAdoption (s : State) (pair : Nat) : Outcome → State
  | .fulfilled v =>
    (s.settleWithAdoption pair v false true).settleWithAdoption pair .undefined false true
  | .rejected e =>
    (s.settleWithAdoption pair e true true).settleWithAdoption pair .undefined false true

/-- `thenable_job`. -/
def runThenable (s : State) (pair obj : Nat) (outcome : ThenOutcome) : State :=
  let s := { s with thenOutcome := Function.update s.thenOutcome pair (some outcome) }
  match outcome with
  | .threw e => s.settleWithAdoption pair e true true
  | .notCallable => s.settleWithAdoption pair (.object obj) false false
  | .called => { s with exposed := Function.update s.exposed pair true }

def step (s : State) : Label → State
  | .newPromise => newPromise s
  | .call pair value rejecting => call s pair value rejecting
  | .run i outcome =>
    match s.jobs[i]? with
    | none => s
    | some (.adoption pair settled) =>
      runAdoption { s with jobs := s.jobs.eraseIdx i } pair settled
    | some (.thenable pair obj) =>
      runThenable { s with jobs := s.jobs.eraseIdx i } pair obj outcome
  | .heap hasThen => { s with hasThen }

/-! ## §3 What resolving should do -/

/-- What the first call of a pair determines: a rejection, a plain value, the error of a
promise resolved with itself, the settlement of the adopted promise, or what the
thenable's `then` makes of it. -/
inductive Determines (s : State) : Nat → Outcome → Prop
  | reject {pair : Nat} {e : Value} (h : s.first pair = some (.reject e)) :
    Determines s pair (.rejected e)
  | plain {pair : Nat} {v : Value} (h : s.first pair = some (.plain v)) :
    Determines s pair (.fulfilled v)
  | self {pair : Nat} (h : s.first pair = some .self) : Determines s pair (.rejected .typeError)
  | promise {pair q : Nat} {outcome : Outcome} (h : s.first pair = some (.promise q))
    (hq : s.state q = some outcome) : Determines s pair outcome
  | threw {pair pair' obj : Nat} {e : Value} (h : s.first pair = some (.thenable pair' obj))
    (hthen : s.thenOutcome pair' = some (.threw e)) : Determines s pair (.rejected e)
  | notCallable {pair pair' obj : Nat} (h : s.first pair = some (.thenable pair' obj))
    (hthen : s.thenOutcome pair' = some .notCallable) :
    Determines s pair (.fulfilled (.object obj))
  | called {pair pair' obj : Nat} {outcome : Outcome}
    (h : s.first pair = some (.thenable pair' obj)) (hthen : s.thenOutcome pair' = some .called)
    (hpair : Determines s pair' outcome) : Determines s pair outcome

/-- No promise, no record and no job is touched. -/
structure NoEffect (s s' : State) : Prop where
  state : s'.state = s.state
  reactions : s'.reactions = s.reactions
  jobs : s'.jobs = s.jobs

/-- What every step should do. -/
structure Good (s : State) (l : Label) : Prop where
  /-- A settled promise stays as it is. -/
  once : ∀ p outcome, s.state p = some outcome → (step s l).state p = some outcome
  /-- A call after the first of its pair has no effect. -/
  second : ∀ pair value rejecting, l = .call pair value rejecting → s.first pair ≠ none →
    NoEffect s (step s l)
  /-- A settled promise is as the first call of its pair determines. -/
  right : ∀ p < (step s l).promises, ∀ outcome, (step s l).state p = some outcome →
    Determines (step s l) ((step s l).root p) outcome
  /-- With no job left, what is determined has happened. -/
  quiet : (step s l).jobs = [] → ∀ p < (step s l).promises, ∀ outcome,
    Determines (step s l) ((step s l).root p) outcome → (step s l).state p = some outcome

end V12.Resolving
