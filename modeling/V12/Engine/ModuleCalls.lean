/-
V12.Engine.ModuleCalls — what one step of the module loader can do.

§1 has accessors of frames, §2 the lookups after each change of the map, §3 what an
error takes away. §4 lists the moves, what they need and what they change, and §5
shows that every step is one of them.
-/
import V12.Engine.ModuleLoader

namespace V12.ModuleLoader

open V12.ModulePlan V12.ModuleNamespace

variable {P S V : Type}

/-! ## §1 Frames -/

namespace Frame

def path : Frame P S → P
  | eager path _ _ _ | body path _ _ | deferred path _ _ | gather path _ _ _ | targets path _ =>
    path

def isDeferred : Frame P S → Bool
  | eager _ _ _ _ | body _ _ _ => false
  | _ => true

def isCode : Frame P S → Bool
  | body _ _ _ => true
  | _ => false

/-- The path that is in `loading` for the frame. -/
def loads : Frame P S → Option P
  | eager path _ _ _ | body path _ _ => some path
  | _ => none

/-- The path whose record goes when the frame fails. -/
def removes : Frame P S → Option P
  | eager path _ _ _ | deferred path _ _ => some path
  | _ => none

def refusal (e : Failure S V) (f : Frame P S) : Event P S V := .refused f.path f.isDeferred e

/-- The frames above the next code. -/
def abandoned (stack : List (Frame P S)) : List (Frame P S) := stack.takeWhile fun f => !f.isCode

end Frame

/-- The request that the frame on top is about to make or waits for. -/
def Awaits (graph : Graph P S) (stack : List (Frame P S)) (path : P) (deferred : Bool) : Prop :=
  match stack with
  | [] | .body _ _ _ :: _ => True
  | .eager referrer _ _ ((specifier, phase) :: _) :: _ =>
    path = graph.resolve referrer specifier ∧ deferred = phase
  | .deferred referrer _ ((specifier, _) :: _) :: _ =>
    path = graph.resolve referrer specifier ∧ deferred = true
  | .targets _ (target :: _) :: _ => path = target ∧ deferred = false
  | _ => False

/-! ## §2 The map -/

variable [DecidableEq P]

theorem record_modifyRecord (s : State P S V) (path : P) (f : LinkedModule S V → LinkedModule S V)
    (p : P) :
    (s.modifyRecord path f).record p = if p = path then (s.record p).map f else s.record p :=
  Lib.lookup_map_update path p f s.modules

theorem record_removeRecord (s : State P S V) (path p : P) :
    (s.removeRecord path).record p = if p = path then none else s.record p :=
  Lib.lookup_filter_ne path p s.modules

theorem record_insert (s : State P S V) (path : P) (record : LinkedModule S V) (p : P) :
    State.record { s with modules := (path, record) :: s.modules } p =
      if p = path then some record else s.record p := by
  simp only [State.record, List.lookup_cons]
  by_cases h : p = path
  · simp [h]
  · have hne : (p == path) = false := by simp [h]
    rw [hne, if_neg h]

/-! ## §3 Unwinding -/

theorem unwind_stack (e : Failure S V) (stack : List (Frame P S)) (s : State P S V) :
    (s.unwind e stack).stack = stack.dropWhile fun f => !f.isCode := by
  induction stack generalizing s with
  | nil => rfl
  | cons f rest ih => cases f with
    | body => rfl
    | _ => exact ih _

/-- One frame is given up. -/
def State.giveUp (e : Failure S V) (s : State P S V) : Frame P S → State P S V
  | .eager path _ _ _ => ((s.leave path).removeRecord path).emit (.refused path false e)
  | .deferred path _ _ => (s.removeRecord path).emit (.refused path true e)
  | .gather path _ _ _ | .targets path _ => s.emit (.refused path true e)
  | .body _ _ _ => s

section GiveUp

variable (e : Failure S V) (s : State P S V) {f : Frame P S}

theorem unwind_code (hcode : f.isCode = true) (rest : List (Frame P S)) :
    s.unwind e (f :: rest) = { s with stack := f :: rest } := by
  cases f with
  | body => rfl
  | _ => cases hcode

theorem unwind_cons (hcode : f.isCode = false) (rest : List (Frame P S)) :
    s.unwind e (f :: rest) = (s.giveUp e f).unwind e rest := by
  cases f with
  | body => cases hcode
  | _ => rfl

theorem giveUp_log (hcode : f.isCode = false) :
    (s.giveUp e f).log = s.log ++ [f.refusal e] := by
  cases f with
  | body => cases hcode
  | _ => rfl

theorem giveUp_record (p : P) :
    (s.giveUp e f).record p = if f.removes = some p then none else s.record p := by
  cases f with
  | eager path =>
    refine (record_removeRecord (s.leave path) path p).trans ?_
    simp only [Frame.removes, Option.some.injEq, eq_comm (a := path)]
    rfl
  | deferred path =>
    refine (record_removeRecord s path p).trans ?_
    simp only [Frame.removes, Option.some.injEq, eq_comm (a := path)]
  | _ => rfl

theorem giveUp_loading :
    (s.giveUp e f).loading = s.loading.filter fun p => f.isCode ∨ f.loads ≠ some p := by
  cases f with
  | eager path =>
    refine List.filter_congr fun p _ => ?_
    simp only [Frame.isCode, Frame.loads, ne_eq, Option.some.injEq, eq_comm (a := path),
      Bool.false_eq_true, false_or]
  | body => exact (List.filter_eq_self.mpr fun _ _ => rfl).symm
  | _ => exact (List.filter_eq_self.mpr fun _ _ => rfl).symm

end GiveUp

namespace Frame

omit [DecidableEq P] in
theorem abandoned_code {f : Frame P S} (hcode : f.isCode = true) (rest : List (Frame P S)) :
    abandoned (f :: rest) = [] := by rw [abandoned, List.takeWhile_cons, hcode]; rfl

omit [DecidableEq P] in
theorem abandoned_cons {f : Frame P S} (hcode : f.isCode = false) (rest : List (Frame P S)) :
    abandoned (f :: rest) = f :: abandoned rest := by
  rw [abandoned, List.takeWhile_cons, hcode]
  rfl

end Frame

theorem unwind_log (e : Failure S V) (stack : List (Frame P S)) (s : State P S V) :
    (s.unwind e stack).log = s.log ++ (Frame.abandoned stack).map (Frame.refusal e) := by
  induction stack generalizing s with
  | nil => exact (List.append_nil _).symm
  | cons f rest ih =>
    cases hcode : f.isCode with
    | true =>
      rw [unwind_code e s hcode, Frame.abandoned_code hcode, List.map_nil, List.append_nil]
    | false =>
      rw [unwind_cons e s hcode, ih, giveUp_log e s hcode, Frame.abandoned_cons hcode,
        List.map_cons, List.append_assoc, List.singleton_append]

theorem unwind_record (e : Failure S V) (stack : List (Frame P S)) (s : State P S V) (p : P) :
    (s.unwind e stack).record p =
      if p ∈ (Frame.abandoned stack).filterMap Frame.removes then none else s.record p := by
  induction stack generalizing s with
  | nil => exact (if_neg List.not_mem_nil).symm
  | cons f rest ih =>
    cases hcode : f.isCode with
    | true =>
      rw [unwind_code e s hcode, Frame.abandoned_code hcode, List.filterMap_nil,
        if_neg List.not_mem_nil]
      rfl
    | false =>
      rw [unwind_cons e s hcode, ih, giveUp_record, Frame.abandoned_cons hcode,
        List.filterMap_cons]
      cases f.removes with
      | none => rw [if_neg (Option.some_ne_none p).symm]
      | some path =>
        simp only [List.mem_cons, Option.some.injEq]
        by_cases hp : path = p
        · simp only [hp, if_true, ite_self, true_or]
        · simp only [hp, Ne.symm hp, if_false, false_or]

theorem unwind_loading (e : Failure S V) (stack : List (Frame P S)) (s : State P S V) :
    (s.unwind e stack).loading =
      s.loading.filter fun p => p ∉ (Frame.abandoned stack).filterMap Frame.loads := by
  induction stack generalizing s with
  | nil => exact (List.filter_eq_self.mpr fun _ _ => decide_eq_true List.not_mem_nil).symm
  | cons f rest ih =>
    cases hcode : f.isCode with
    | true =>
      rw [unwind_code e s hcode, Frame.abandoned_code hcode]
      exact (List.filter_eq_self.mpr fun _ _ => decide_eq_true List.not_mem_nil).symm
    | false =>
      rw [unwind_cons e s hcode, ih, giveUp_loading, List.filter_filter, Frame.abandoned_cons hcode,
        List.filterMap_cons]
      refine List.filter_congr fun p _ => ?_
      cases f.loads with
      | none => simp only [hcode, Bool.false_eq_true, ne_eq, reduceCtorEq, not_false_eq_true, or_true,
          decide_true, Bool.and_true]
      | some path =>
        simp only [hcode, Bool.false_eq_true, false_or, List.mem_cons, not_or, ne_eq,
          Option.some.injEq, eq_comm (a := path), Bool.decide_and, Bool.and_comm]

/-! ## §4 Moves -/

/-- The request a step is about. -/
def State.asks (graph : Graph P S) (s : State P S V) : Label P V → Option (P × Bool)
  | .request deferred path =>
    match s.stack with
    | [] => some (path, deferred)
    | _ => none
  | .runJob =>
    match s.stack, s.jobs with
    | [], path :: _ => some (path, false)
    | _, _ => none
  | .advance =>
    match s.stack with
    | .eager path _ _ ((specifier, deferred) :: _) :: _ =>
      some (graph.resolve path specifier, deferred)
    | .deferred path _ ((specifier, _) :: _) :: _ => some (graph.resolve path specifier, true)
    | .targets _ (target :: _) :: _ => some (target, false)
    | .targets path [] :: _ => some (path, true)
    | _ => none
  | .observe namespaceId =>
    if s.atCode then (s.moduleOf namespaceId).map fun path => (path, false) else none
  | _ => none

def readFailure (graph : Graph P S) (path : P) : Option (Failure S V) :=
  match graph.read path with
  | .error message => some (.notRead message)
  | .ok _ => none

/-- Why a request is refused at once. -/
def State.refusal (graph : Graph P S) (s : State P S V) (path : P) : Bool → Option (Failure S V)
  | true =>
    match s.record path with
    | none => readFailure graph path
    | some record =>
      match record.deferredNamespace with
      | some _ => none
      | none =>
        (linkRecord graph (s.attachDeferred path record).1.modules path
          (s.attachDeferred path record).1.heap).2
  | false =>
    match s.record path with
    | none => readFailure graph path
    | some record =>
      match record.cachedError with
      | some e => some e
      | none =>
        if record.evaluated ∨ record.tlaPending ∨ path ∈ s.loading then none
        else readFailure graph path

/-- Why a step fails. -/
def State.failure (graph : Graph P S) (s : State P S V) : Label P V → Option (Failure S V)
  | .advance =>
    match s.stack with
    | .eager path _ _ ((specifier, deferred) :: _) :: _ =>
      s.refusal graph (graph.resolve path specifier) deferred
    | .eager path _ _ [] :: _ | .deferred path _ [] :: _ =>
      (linkRecord graph s.modules path s.heap).2
    | .deferred path _ ((specifier, _) :: _) :: _ =>
      s.refusal graph (graph.resolve path specifier) true
    | .gather _ (next :: _) seen _ :: _ =>
      if next ∈ seen ∨ (s.record next).any LinkedModule.evaluated ∨ next ∈ s.loading then none
      else readFailure graph next
    | .targets _ (target :: _) :: _ => s.refusal graph target false
    | _ => none
  | .bodyEnds (.throws v) =>
    match s.stack with
    | .body _ _ _ :: _ => some (.thrown v)
    | _ => none
  | _ => none

/-- The calls that a failing step gives up: those up to the code that asked for them. -/
def State.givesUp (s : State P S V) : List (Frame P S) :=
  match s.stack with
  | .body _ _ _ :: rest => Frame.abandoned rest
  | stack => Frame.abandoned stack

/-- The body has run, or waits at an `await`. -/
def LinkedModule.Settled (r : LinkedModule S V) : Prop := r.evaluated = true ∨ r.tlaPending = true

/-- A record that was given no status yet. -/
structure LinkedModule.Fresh (r : LinkedModule S V) : Prop where
  evaluated : r.evaluated = false
  tlaPending : r.tlaPending = false
  cachedError : r.cachedError = none

/-- A record may gain a namespace, and nothing else. -/
structure LinkedModule.Gains (r r' : LinkedModule S V) : Prop where
  env : r'.env = r.env
  ownerModuleId : r'.ownerModuleId = r.ownerModuleId
  bindingPlan : r'.bindingPlan = r.bindingPlan
  exportStars : r'.exportStars = r.exportStars
  evaluated : r'.evaluated = r.evaluated
  tlaPending : r'.tlaPending = r.tlaPending
  cachedError : r'.cachedError = r.cachedError
  namespaces : ∀ deferred namespaceId, r.namespaceOf deferred = some namespaceId →
    r'.namespaceOf deferred = some namespaceId

theorem LinkedModule.Gains.refl (r : LinkedModule S V) : r.Gains r :=
  ⟨rfl, rfl, rfl, rfl, rfl, rfl, rfl, fun _ _ h => h⟩

/-- The record of a module to run is the old one or a fresh one. -/
theorem executionOf_spec (s : State P S V) (path : P) (module : Module S) :
    (∀ p, (s.executionOf path module).1.record p =
        if p = path then some (s.executionOf path module).2 else s.record p) ∧
      (s.executionOf path module).1.loading = s.loading ∧
      (s.executionOf path module).1.stack = s.stack ∧
      (s.executionOf path module).1.log = s.log ∧
      (∀ r, s.record path = some r → (s.executionOf path module).2 = r) ∧
      (s.record path = none → (s.executionOf path module).2.Fresh) := by
  cases hrecord : s.record path with
  | some r =>
    have hexecution : s.executionOf path module = (s, r) := by
      simp only [State.executionOf, hrecord]
    rw [hexecution]
    refine ⟨fun p => ?_, rfl, rfl, rfl, fun r' hr' => Option.some.inj hr', nofun⟩
    by_cases hp : p = path
    · rw [if_pos hp, hp, hrecord]
    · rw [if_neg hp]
  | none =>
    have hexecution : s.executionOf path module =
        ({ (s.alloc module).1 with
            modules := (path, (s.alloc module).2) :: (s.alloc module).1.modules },
          (s.alloc module).2) := by
      simp only [State.executionOf, hrecord]
    rw [hexecution]
    refine ⟨fun p => ?_, rfl, rfl, rfl, nofun, fun _ => ⟨rfl, rfl, rfl⟩⟩
    exact record_insert (s.alloc module).1 path (s.alloc module).2 p

/-- A record keeps the namespace it has. -/
theorem eagerNamespaceOf_spec (s : State P S V) (record : LinkedModule S V) (module : Module S) :
    (s.eagerNamespaceOf record module).1.record = s.record ∧
      (s.eagerNamespaceOf record module).1.loading = s.loading ∧
      (s.eagerNamespaceOf record module).1.stack = s.stack ∧
      (s.eagerNamespaceOf record module).1.log = s.log ∧
      ∀ namespaceId, record.eagerNamespace = some namespaceId →
        (s.eagerNamespaceOf record module).2 = namespaceId := by
  cases hnamespace : record.eagerNamespace with
  | some namespaceId =>
    have heager : s.eagerNamespaceOf record module = (s, namespaceId) := by
      simp only [State.eagerNamespaceOf, hnamespace]
    rw [heager]
    exact ⟨rfl, rfl, rfl, rfl, fun id hid => Option.some.inj hid⟩
  | none =>
    have heager : s.eagerNamespaceOf record module =
        ({ s with heap := (attachNamespace s.heap record.env module.bindingPlan).1 },
          (attachNamespace s.heap record.env module.bindingPlan).2) := by
      simp only [State.eagerNamespaceOf, hnamespace]
    rw [heager]
    exact ⟨rfl, rfl, rfl, rfl, nofun⟩

theorem attachDeferred_spec (s : State P S V) (path : P) (record : LinkedModule S V) :
    (∀ p, (s.attachDeferred path record).1.record p =
        if p = path then (s.record p).map fun r =>
          { r with deferredNamespace := some (s.attachDeferred path record).2 } else s.record p) ∧
      (s.attachDeferred path record).1.loading = s.loading ∧
      (s.attachDeferred path record).1.stack = s.stack ∧
      (s.attachDeferred path record).1.log = s.log := by
  refine ⟨fun p => ?_, rfl, rfl, rfl⟩
  exact record_modifyRecord { s with heap := _ } path _ p

theorem env_modifyRecord (s : State P S V) (path : P) (f : LinkedModule S V → LinkedModule S V)
    (hf : ∀ r, (f r).env = r.env) (p : P) :
    ((s.modifyRecord path f).record p).map LinkedModule.env =
      (s.record p).map LinkedModule.env := by
  rw [record_modifyRecord]
  by_cases hp : p = path
  · rw [if_pos hp, Option.map_map]
    exact congrFun (congrArg Option.map (funext hf)) (s.record p)
  · rw [if_neg hp]

theorem bodyEnds_log (s : State P S V) (path : P) (rest : List (Frame P S))
    (f : LinkedModule S V → LinkedModule S V) (henv : ∀ r, (f r).env = r.env)
    (event : Event P S V) (namespaceId : Nat) :
    ((((State.modifyRecord { s with stack := rest } path f).leave path).emit event).succeed path
      false namespaceId).log =
      s.log ++ [event, .given path false namespaceId ((s.record path).map LinkedModule.env)] := by
  have hlookup : ((((State.modifyRecord { s with stack := rest } path f).leave path).emit
      event).record path).map LinkedModule.env = (s.record path).map LinkedModule.env :=
    env_modifyRecord { s with stack := rest } path f henv path
  rw [State.succeed, State.emit]
  dsimp only
  rw [hlookup]
  exact List.append_assoc s.log [event] _

variable [DecidableEq S]
variable {graph : Graph P S} {s s₁ : State P S V} {label : Label P V}

/-- A request is answered from a record, which may have gained a namespace. -/
structure Move.Answers (graph : Graph P S) (s s' : State P S V) (path : P) (deferred : Bool)
    (namespaceId : Nat) (r' : LinkedModule S V) : Prop where
  awaits : Awaits graph s.stack path deferred
  absent : ∀ p, s.record p = none → s'.record p = none
  gains : ∀ p r, s.record p = some r → ∃ r', s'.record p = some r' ∧ r.Gains r'
  loading : s'.loading = s.loading
  stack : s'.stack = resume s.stack
  log : s'.log = s.log ++ [.given path deferred namespaceId (some r'.env)]
  record : s'.record path = some r'
  namespaceOf : r'.namespaceOf deferred = some namespaceId
  eager : deferred = false → r'.cachedError = none ∧ (r'.Settled ∨ path ∈ s.loading)

/-- An eager load is pushed with its fresh record. -/
structure Move.PushesEager (graph : Graph P S) (s s' : State P S V) (path : P) (module : Module S)
    (namespaceId : Nat) (r : LinkedModule S V) : Prop where
  awaits : Awaits graph s.stack path false
  unloaded : path ∉ s.loading
  read : graph.read path = .ok module
  eagerNamespace : r.eagerNamespace = some namespaceId
  fresh : r.Fresh
  old : ∀ r₀, s.record path = some r₀ → r₀.Gains r
  record : ∀ p, s'.record p = if p = path then some r else s.record p
  loading : s'.loading = path :: s.loading
  stack : s'.stack = .eager path module namespaceId (requests module) :: s.stack
  log : s'.log = s.log

/-- A deferred load is pushed for a module without a record. -/
structure Move.PushesDeferred (graph : Graph P S) (s s' : State P S V) (path : P)
    (module : Module S) (r : LinkedModule S V) : Prop where
  awaits : Awaits graph s.stack path true
  read : graph.read path = .ok module
  fresh : r.Fresh
  absent : s.record path = none
  record : ∀ p, s'.record p = if p = path then some r else s.record p
  loading : s'.loading = s.loading
  stack : s'.stack = .deferred path module (requests module) :: s.stack
  log : s'.log = s.log

/-- A body ends or suspends, and its request is answered. -/
structure Move.Ends (s s' : State P S V) (path : P) (module : Module S) (namespaceId : Nat)
    (rest : List (Frame P S)) (suspends : Bool) : Prop where
  top : s.stack = .body path module namespaceId :: rest
  record : ∀ p, s'.record p = if p = path then (s.record p).map fun r =>
    if suspends then { r with tlaPending := true } else { r with evaluated := true }
    else s.record p
  loading : s'.loading = s.loading.filter fun p => p ≠ path
  stack : s'.stack = resume rest
  log : s'.log = s.log ++ ([if suspends then .suspended path else .completed path,
    .given path false namespaceId ((s.record path).map LinkedModule.env)] : List (Event P S V))

/-- A body throws, and the loads above the next code are given up. -/
structure Move.Throws (s s' : State P S V) (path : P) (module : Module S) (namespaceId : Nat)
    (rest : List (Frame P S)) (v : V) : Prop where
  top : s.stack = .body path module namespaceId :: rest
  record : ∀ p, s'.record p =
    if p ∈ (Frame.abandoned rest).filterMap Frame.removes then none
    else if p = path then (s.record p).map fun r =>
      { r with cachedError := some (.thrown v), tlaPending := false }
    else s.record p
  loading : s'.loading = (s.loading.filter fun p => p ≠ path).filter fun p =>
    p ∉ (Frame.abandoned rest).filterMap Frame.loads
  stack : s'.stack = rest.dropWhile fun f => !f.isCode
  log : s'.log = s.log ++
    ([.threw path (.thrown v), .refused path false (.thrown v)] : List (Event P S V)) ++
      (Frame.abandoned rest).map (Frame.refusal (.thrown v))

/-- A request fails, and the loads above the next code are given up. -/
structure Move.Fails (s s' : State P S V) (e : Failure S V) (before : List (Event P S V)) :
    Prop where
  record : ∀ p, s'.record p =
    if p ∈ (Frame.abandoned s.stack).filterMap Frame.removes then none else s.record p
  loading : s'.loading =
    s.loading.filter fun p => p ∉ (Frame.abandoned s.stack).filterMap Frame.loads
  stack : s'.stack = s.stack.dropWhile fun f => !f.isCode
  log : s'.log = s.log ++ before ++ (Frame.abandoned s.stack).map (Frame.refusal e)

/-- The moves. Each says what a step leaves as it was, what it changes, and what it was
allowed by. -/
inductive Move (graph : Graph P S) (s : State P S V) (label : Label P V) (s' : State P S V) :
    Prop where
  | idle (hrecord : s'.record = s.record) (hloading : s'.loading = s.loading)
    (hstack : s'.stack = s.stack) (hlog : s'.log = s.log)
  | refuse (path : P) (deferred : Bool) (e : Failure S V) (hrecord : s'.record = s.record)
    (hloading : s'.loading = s.loading) (hstack : s'.stack = s.stack)
    (hlog : s'.log = s.log ++ [.refused path deferred e])
    (hcached : ∀ r e', s.record path = some r → r.cachedError = some e' → e = e')
  | settle (path : P) (e : Option (Failure S V)) (hlabel : ∃ thrown, label = .settles path thrown)
    (hrecord : s'.record = s.record) (hloading : s'.loading = s.loading)
    (hstack : s'.stack = s.stack) (hlog : s'.log = s.log ++ [.settled path e])
    (hsuspended : .suspended path ∈ s.log)
  | answer (path : P) (deferred : Bool) (namespaceId : Nat) (r' : LinkedModule S V)
    (hasks : s.asks graph label = some (path, deferred))
    (h : Move.Answers graph s s' path deferred namespaceId r')
  | pushEager (path : P) (module : Module S) (namespaceId : Nat) (r : LinkedModule S V)
    (h : Move.PushesEager graph s s' path module namespaceId r)
  | pushDeferred (path : P) (module : Module S) (r : LinkedModule S V)
    (h : Move.PushesDeferred graph s s' path module r)
  | start (path : P) (module : Module S) (namespaceId : Nat) (rest : List (Frame P S))
    (htop : s.stack = .eager path module namespaceId [] :: rest)
    (hlinks : (linkRecord graph s.modules path s.heap).2 = none)
    (hrecord : s'.record = s.record) (hloading : s'.loading = s.loading)
    (hstack : s'.stack = .body path module namespaceId :: rest)
    (hlog : s'.log = s.log ++ ([.linked path, .started path] : List (Event P S V)))
  | gathers (path : P) (module : Module S) (rest : List (Frame P S))
    (htop : s.stack = .deferred path module [] :: rest)
    (hrecord : s'.record = s.record) (hloading : s'.loading = s.loading)
    (hstack : s'.stack = .gather path [path] [] [] :: rest)
    (hlog : s'.log = s.log ++ [.linked path])
  | works (path : P) (pending seen targets : List P) (f' : Frame P S) (rest : List (Frame P S))
    (htop : s.stack = .gather path pending seen targets :: rest)
    (hworks : (∃ pending' seen' targets', f' = .gather path pending' seen' targets') ∨
      f' = .targets path targets)
    (hrecord : s'.record = s.record) (hloading : s'.loading = s.loading)
    (hstack : s'.stack = f' :: rest) (hlog : s'.log = s.log)
  | returns (path : P) (namespaceId : Nat) (r : LinkedModule S V) (rest : List (Frame P S))
    (hasks : s.asks graph label = some (path, true))
    (htop : s.stack = .targets path [] :: rest) (hr : s.record path = some r)
    (hnamespace : r.deferredNamespace = some namespaceId)
    (hrecord : s'.record = s.record) (hloading : s'.loading = s.loading)
    (hstack : s'.stack = resume rest)
    (hlog : s'.log = s.log ++ [.given path true namespaceId (some r.env)])
  | ends (path : P) (module : Module S) (namespaceId : Nat) (rest : List (Frame P S))
    (suspends : Bool) (h : Move.Ends s s' path module namespaceId rest suspends)
  | throws (path : P) (module : Module S) (namespaceId : Nat) (rest : List (Frame P S)) (v : V)
    (hlabel : label = .bodyEnds (.throws v)) (h : Move.Throws s s' path module namespaceId rest v)
  | fails (e : Failure S V) (before : List (Event P S V))
    (hfails : s.failure graph label = some e ∨ Frame.abandoned s.stack = [])
    (hbefore : before = [] ∨ ∃ path deferred, before = [.refused path deferred e] ∧
      s.asks graph label = some (path, deferred) ∧
      ∀ r e', s.record path = some r → r.cachedError = some e' → deferred = false → e = e')
    (h : Move.Fails s s' e before)

/-! ## §5 The invariant -/

namespace Frame

/-- The module, and its requests that are still to be made. -/
def loop : Frame P S → Option (Module S × List (S × Bool))
  | eager _ module _ todo => some (module, todo)
  | body _ module _ => some (module, [])
  | deferred _ module todo => some (module, todo)
  | _ => none

def namespaceId : Frame P S → Option Nat
  | eager _ _ namespaceId _ | body _ _ namespaceId => some namespaceId
  | _ => none

/-- The module whose load the frame is. -/
def owns : Frame P S → Option P
  | eager path _ _ _ | body path _ _ | deferred path _ _ => some path
  | _ => none

end Frame

/-- What an eager request of a loop left: the module is evaluated or pending, or its own load is
still active, here or below. -/
def Taken (s : State P S V) (above stack : List (Frame P S)) (child : P) : Prop :=
  (∃ r, s.record child = some r ∧ r.Settled ∧ ∀ g ∈ above, g.owns ≠ some child) ∨
    child ∈ stack.filterMap Frame.loads

/-- What holds of a frame, between those above and below. -/
structure Good (graph : Graph P S) (s : State P S V) (above : List (Frame P S)) (f : Frame P S)
    (below : List (Frame P S)) : Prop where
  read : ∀ module todo, f.loop = some (module, todo) → graph.read f.path = .ok module
  active : ∀ path, f.loads = some path → ∃ r, s.record path = some r ∧ r.Fresh ∧
    r.eagerNamespace = f.namespaceId
  guard : ∀ path, f.removes = some path → f.isDeferred = true →
    path ∉ below.filterMap Frame.loads
  awaits : Awaits graph below f.path f.isDeferred
  taken : ∀ module todo, f.loop = some (module, todo) → ∃ taken, requests module = taken ++ todo ∧
    ∀ r ∈ taken, let child := graph.resolve f.path r.1
      (∃ deferred namespaceId env, .given child deferred namespaceId env ∈ s.log) ∧
      (r.2 = false → f.isDeferred = false → Taken s above (f :: below) child)

/-- A frame that looks for targets owns nothing. -/
theorem Good.of_searching {above below : List (Frame P S)} {f : Frame P S} (hloop : f.loop = none)
    (hloads : f.loads = none) (hremoves : f.removes = none)
    (hawaits : Awaits graph below f.path f.isDeferred) : Good graph s above f below where
  read := fun module todo h => by rw [hloop] at h; cases h
  active := fun path h => by rw [hloads] at h; cases h
  guard := fun path h => by rw [hremoves] at h; cases h
  awaits := hawaits
  taken := fun module todo h => by rw [hloop] at h; cases h

/-- A frame stays good while its record stays fresh, what was settled stays so and the log grows. -/
theorem Good.mono {s' : State P S V} {above above' below : List (Frame P S)} {f : Frame P S}
    (h : Good graph s above f below)
    (hactive : ∀ path, f.loads = some path → ∀ r, s.record path = some r → r.Fresh →
      r.eagerNamespace = f.namespaceId →
      ∃ r', s'.record path = some r' ∧ r'.Fresh ∧ r'.eagerNamespace = f.namespaceId)
    (hlog : ∀ event ∈ s.log, event ∈ s'.log)
    (htaken : ∀ child r, s.record child = some r → r.Settled →
      (∀ g ∈ above, g.owns ≠ some child) →
      ∃ r', s'.record child = some r' ∧ r'.Settled ∧ ∀ g ∈ above', g.owns ≠ some child) :
    Good graph s' above' f below := by
  refine { h with active := ?_, taken := ?_ }
  · intro path hloads
    obtain ⟨r, hr, hfresh, heager⟩ := h.active path hloads
    exact hactive path hloads r hr hfresh heager
  · intro module todo hloop
    obtain ⟨taken, heq, hall⟩ := h.taken module todo hloop
    refine ⟨taken, heq, fun r hr => ?_⟩
    obtain ⟨⟨deferred, namespaceId, env, hgiven⟩, hstatus⟩ := hall r hr
    refine ⟨⟨deferred, namespaceId, env, hlog _ hgiven⟩, fun heager hphase => ?_⟩
    rcases hstatus heager hphase with ⟨r', hr', hsettled, howns⟩ | hloading
    · exact .inl (htaken _ r' hr' hsettled howns)
    · exact .inr hloading

/-- **The invariant**: `loading`, the statuses of the records and the log go with the stack. -/
structure Inv (graph : Graph P S) (s : State P S V) : Prop where
  loading : s.loading = s.stack.filterMap Frame.loads
  nodup : s.loading.Nodup
  read : ∀ path r, s.record path = some r → ∃ module, graph.read path = .ok module
  status : ∀ path r, s.record path = some r →
    (r.Settled ∨ r.cachedError ≠ none → r.eagerNamespace ≠ none) ∧
    (r.evaluated = true → .completed path ∈ s.log) ∧
    (r.tlaPending = true → .suspended path ∈ s.log) ∧
    ∀ e, r.cachedError = some e → .threw path e ∈ s.log
  /-- What was asked for was found. -/
  givenRead : ∀ path deferred namespaceId env, .given path deferred namespaceId env ∈ s.log →
    ∃ module, graph.read path = .ok module
  good : ∀ above f below, s.stack = above ++ f :: below → Good graph s above f below

theorem inv_empty (graph : Graph P S) : Inv graph (State.empty : State P S V) where
  loading := rfl
  nodup := List.nodup_nil
  read := nofun
  status := nofun
  givenRead := nofun
  good := fun above f below h => by cases above <;> cases h

/-! ## §6 Every step is a move -/

/-- A module that is being loaded has a record without status. -/
theorem Inv.loading_active (h : Inv graph s) {path : P} (hloading : path ∈ s.loading) :
    ∃ r namespaceId, s.record path = some r ∧ r.Fresh ∧ r.eagerNamespace = some namespaceId := by
  rw [h.loading] at hloading
  obtain ⟨f, hf, hloads⟩ := List.mem_filterMap.mp hloading
  obtain ⟨above, below, hstack⟩ := List.append_of_mem hf
  obtain ⟨r, hr, hfresh, heager⟩ := (h.good above f below hstack).active path hloads
  cases f with
  | eager p m namespaceId todo => exact ⟨r, namespaceId, hr, hfresh, heager⟩
  | body p m namespaceId => exact ⟨r, namespaceId, hr, hfresh, heager⟩
  | _ => cases hloads

/-- An answered request. -/
theorem succeed_move {path : P} {deferred : Bool} {namespaceId : Nat} {r' : LinkedModule S V}
    (hasks : s.asks graph label = some (path, deferred))
    (hawaits : Awaits graph s.stack path deferred)
    (hnone : ∀ p, s.record p = none → s₁.record p = none)
    (hgains : ∀ p r, s.record p = some r → ∃ r', s₁.record p = some r' ∧ r.Gains r')
    (hloading : s₁.loading = s.loading) (hstack : s₁.stack = s.stack) (hlog : s₁.log = s.log)
    (hr' : s₁.record path = some r') (hnamespace : r'.namespaceOf deferred = some namespaceId)
    (heager : deferred = false → r'.cachedError = none ∧ (r'.Settled ∨ path ∈ s.loading)) :
    Move graph s label (s₁.succeed path deferred namespaceId) := by
  refine .answer path deferred namespaceId r' hasks ⟨hawaits, hnone, hgains, hloading, ?_, ?_, hr',
    hnamespace, heager⟩
  · show resume s₁.stack = resume s.stack
    rw [hstack]
  · simp only [State.succeed, State.emit, hr', hlog, Option.map_some]

/-- A failing step gives the frames above the next code up. -/
theorem fail_move {e : Failure S V} (hmodules : s₁.modules = s.modules)
    (hloading : s₁.loading = s.loading) (hstack : s₁.stack = s.stack) (hlog : s₁.log = s.log)
    (hfails : s.failure graph label = some e) : Move graph s label (s₁.fail e) := by
  have hrecord : s₁.record = s.record := by
    funext p
    simp only [State.record, hmodules]
  by_cases hpanics : e = .panics
  · rw [hpanics]
    exact .idle hrecord hloading hstack hlog
  · have hfail : s₁.fail e = s₁.unwind e s.stack := by
      rw [← hstack]
      cases e with
      | panics => exact absurd rfl hpanics
      | _ => rfl
    rw [hfail]
    refine .fails e [] (.inl hfails) (.inl rfl) ⟨fun p => ?_, ?_, unwind_stack e s.stack s₁, ?_⟩
    · rw [unwind_record, hrecord]
    · rw [unwind_loading, hloading]
    · rw [unwind_log, hlog, List.append_nil]

/-- A refused request fails the loads that asked. -/
theorem refuse_move {path : P} {deferred : Bool} {e : Failure S V} (hrecord : s₁.record = s.record)
    (hloading : s₁.loading = s.loading) (hstack : s₁.stack = s.stack) (hlog : s₁.log = s.log)
    (hasks : s.asks graph label = some (path, deferred))
    (hcached : ∀ r e', s.record path = some r → r.cachedError = some e' → deferred = false → e = e')
    (hfails : s.failure graph label = some e ∨ Frame.abandoned s.stack = []) :
    Move graph s label (s₁.refuse path deferred e) := by
  by_cases hpanics : e = .panics
  · rw [hpanics]
    exact .idle hrecord hloading hstack hlog
  · have hrefuse : s₁.refuse path deferred e =
        (s₁.emit (.refused path deferred e)).unwind e s.stack := by
      rw [← hstack]
      cases e with
      | panics => exact absurd rfl hpanics
      | _ => rfl
    rw [hrefuse]
    have hrecord' : (s₁.emit (.refused path deferred e)).record = s.record := hrecord
    refine .fails e [.refused path deferred e] hfails (.inr ⟨path, deferred, rfl, hasks, hcached⟩)
      ⟨fun p => ?_, ?_, unwind_stack e s.stack _, ?_⟩
    · rw [unwind_record, hrecord']
    · rw [unwind_loading]
      exact congrArg _ hloading
    · rw [unwind_log]
      simp only [State.emit, hlog]

theorem enterEager_move {path : P} (hasks : s.asks graph label = some (path, false))
    (hawaits : Awaits graph s.stack path false) (hfresh : ∀ r, s.record path = some r → r.Fresh)
    (hunloaded : path ∉ s.loading) (hfails : ∀ e, readFailure graph path = some e →
      s.failure graph label = some e ∨ Frame.abandoned s.stack = []) :
    Move graph s label (s.enterEager graph path) := by
  cases hread : graph.read path with
  | error message =>
    have henter : s.enterEager graph path = s.refuse path false (.notRead message) := by
      simp only [State.enterEager, hread]
    rw [henter]
    refine refuse_move rfl rfl rfl rfl hasks ?_ (hfails _ (by simp only [readFailure, hread]))
    intro r e' hr hcached
    rw [(hfresh r hr).cachedError] at hcached
    cases hcached
  | ok module =>
    have henter : s.enterEager graph path =
        { ((s.executionOf path module).1.eagerNamespaceOf (s.executionOf path module).2
              module).1.modifyRecord path (fun record => { record with
                eagerNamespace := some ((s.executionOf path module).1.eagerNamespaceOf
                  (s.executionOf path module).2 module).2 }) with
          loading := path :: ((s.executionOf path module).1.eagerNamespaceOf
            (s.executionOf path module).2 module).1.loading
          stack := .eager path module ((s.executionOf path module).1.eagerNamespaceOf
              (s.executionOf path module).2 module).2 (requests module) ::
            ((s.executionOf path module).1.eagerNamespaceOf
              (s.executionOf path module).2 module).1.stack } := by
      simp only [State.enterEager, hread]
      rfl
    obtain ⟨hrecord₁, hloading₁, hstack₁, hlog₁, hold, hnew⟩ := executionOf_spec s path module
    rw [henter]
    generalize s.executionOf path module = execution at *
    obtain ⟨s₁, r⟩ := execution
    obtain ⟨hrecord₂, hloading₂, hstack₂, hlog₂, hkept⟩ := eagerNamespaceOf_spec s₁ r module
    simp only at *
    generalize s₁.eagerNamespaceOf r module = result at *
    obtain ⟨s₂, namespaceId⟩ := result
    simp only at *
    have hr : r.Fresh := by
      cases hrecord : s.record path with
      | none => exact hnew hrecord
      | some r₀ =>
        rw [hold r₀ hrecord]
        exact hfresh r₀ hrecord
    refine .pushEager path module namespaceId { r with eagerNamespace := some namespaceId }
      ⟨hawaits, hunloaded, hread, rfl, ⟨hr.evaluated, hr.tlaPending, hr.cachedError⟩, ?_, ?_, ?_, ?_,
        ?_⟩
    · intro r₀ hr₀
      obtain rfl := hold r₀ hr₀
      refine ⟨rfl, rfl, rfl, rfl, rfl, rfl, rfl, fun deferred id hid => ?_⟩
      cases deferred with
      | true => exact hid
      | false =>
        rw [← hkept id hid]
        rfl
    · intro p
      have hlookup := record_modifyRecord s₂ path
        (fun record => { record with eagerNamespace := some namespaceId }) p
      rw [hrecord₂, hrecord₁] at hlookup
      by_cases hp : p = path
      · rw [if_pos hp, if_pos hp] at hlookup
        rw [if_pos hp]
        exact hlookup
      · rw [if_neg hp, if_neg hp] at hlookup
        rw [if_neg hp]
        exact hlookup
    · rw [hloading₂, hloading₁]
    · rw [hstack₂, hstack₁]
    · exact hlog₂.trans hlog₁

/-- An eager request is answered, refused or entered. -/
theorem loadAndEvaluate_move (h : Inv graph s) {path : P}
    (hasks : s.asks graph label = some (path, false)) (hawaits : Awaits graph s.stack path false)
    (hfails : ∀ e, s.refusal graph path false = some e →
      s.failure graph label = some e ∨ Frame.abandoned s.stack = []) :
    Move graph s label (s.loadAndEvaluate graph path) := by
  cases hrecord : s.record path with
  | none =>
    have hunloaded : path ∉ s.loading := by
      intro hloading
      obtain ⟨r, _, hr, -⟩ := h.loading_active hloading
      rw [hrecord] at hr
      cases hr
    have hload : s.loadAndEvaluate graph path = s.enterEager graph path := by
      simp only [State.loadAndEvaluate, hrecord, if_neg hunloaded]
    rw [hload]
    refine enterEager_move hasks hawaits (fun r hr => ?_) hunloaded (fun e he => hfails e ?_)
    · rw [hrecord] at hr
      cases hr
    · simp only [State.refusal, hrecord]
      exact he
  | some r =>
    cases hcached : r.cachedError with
    | some e =>
      have hload : s.loadAndEvaluate graph path = s.refuse path false e := by
        simp only [State.loadAndEvaluate, hrecord, hcached]
      rw [hload]
      refine refuse_move rfl rfl rfl rfl hasks (fun r' e' hr' he' _ => ?_) (hfails e ?_)
      · rw [hrecord] at hr'
        obtain rfl := Option.some.inj hr'
        rw [hcached] at he'
        exact Option.some.inj he'
      · simp only [State.refusal, hrecord, hcached]
    | none =>
      have hsame : ∀ p r, s.record p = some r → ∃ r', s.record p = some r' ∧ r.Gains r' :=
        fun p r hr => ⟨r, hr, .refl r⟩
      by_cases hsettled : r.Settled
      · obtain ⟨namespaceId, hnamespace⟩ :=
          Option.ne_none_iff_exists'.mp ((h.status path r hrecord).1 (.inl hsettled))
        have hflag : (r.evaluated || r.tlaPending) = true := Bool.or_eq_true_iff.mpr hsettled
        have hload : s.loadAndEvaluate graph path = s.succeed path false namespaceId := by
          simp only [State.loadAndEvaluate, hrecord, hcached, hflag, hnamespace]
        rw [hload]
        exact succeed_move hasks hawaits (fun _ hp => hp) hsame rfl rfl rfl hrecord hnamespace
          fun _ => ⟨hcached, .inl hsettled⟩
      · have hfresh : r.Fresh := by
          refine ⟨?_, ?_, hcached⟩
          · exact Bool.eq_false_iff.mpr fun hevaluated => hsettled (.inl hevaluated)
          · exact Bool.eq_false_iff.mpr fun hpending => hsettled (.inr hpending)
        by_cases hloading : path ∈ s.loading
        · obtain ⟨r₀, namespaceId, hr₀, -, hnamespace⟩ := h.loading_active hloading
          rw [hrecord] at hr₀
          obtain rfl := Option.some.inj hr₀
          have hany : r.anyNamespace false = some namespaceId := by
            simp [LinkedModule.anyNamespace, LinkedModule.namespaceOf, hnamespace]
          have hload : s.loadAndEvaluate graph path = s.succeed path false namespaceId := by
            simp only [State.loadAndEvaluate, hrecord, hcached, hfresh.evaluated, hfresh.tlaPending,
              Bool.or_self, if_pos hloading, hany]
          rw [hload]
          exact succeed_move hasks hawaits (fun _ hp => hp) hsame rfl rfl rfl hrecord hnamespace
            fun _ => ⟨hcached, .inr hloading⟩
        · have hload : s.loadAndEvaluate graph path = s.enterEager graph path := by
            simp only [State.loadAndEvaluate, hrecord, hcached, hfresh.evaluated, hfresh.tlaPending,
              Bool.or_self, if_neg hloading]
          rw [hload]
          refine enterEager_move hasks hawaits (fun r' hr' => ?_) hloading (fun e he => hfails e ?_)
          · rw [hrecord] at hr'
            obtain rfl := Option.some.inj hr'
            exact hfresh
          · simp [State.refusal, hrecord, hcached, hfresh.evaluated, hfresh.tlaPending, hloading, he]

/-- A deferred request is answered, refused or entered. -/
theorem loadDeferred_move {path : P} (hasks : s.asks graph label = some (path, true))
    (hawaits : Awaits graph s.stack path true) (hfails : ∀ e, s.refusal graph path true = some e →
      s.failure graph label = some e ∨ Frame.abandoned s.stack = []) :
    Move graph s label (s.loadDeferred graph path) := by
  cases hrecord : s.record path with
  | none =>
    cases hread : graph.read path with
    | error message =>
      have hload : s.loadDeferred graph path = s.refuse path true (.notRead message) := by
        simp only [State.loadDeferred, hrecord, hread]
      rw [hload]
      refine refuse_move rfl rfl rfl rfl hasks (fun _ _ _ _ => nofun) (hfails _ ?_)
      simp only [State.refusal, hrecord, readFailure, hread]
    | ok module =>
      have hload : s.loadDeferred graph path = { (s.alloc module).1 with
          heap := (attachNamespace (s.alloc module).1.heap (s.alloc module).2.env
            module.bindingPlan).1
          modules := (path, { (s.alloc module).2 with
            deferredNamespace := some (attachNamespace (s.alloc module).1.heap
              (s.alloc module).2.env module.bindingPlan).2 }) :: (s.alloc module).1.modules
          stack := .deferred path module (requests module) :: (s.alloc module).1.stack } := by
        simp only [State.loadDeferred, hrecord, hread]
      rw [hload]
      exact .pushDeferred path module _ ⟨hawaits, hread, ⟨rfl, rfl, rfl⟩, hrecord,
        record_insert { s with heap := _, nextModuleId := _, stack := _ } path _, rfl, rfl, rfl⟩
  | some r =>
    have hsame : ∀ p r, s.record p = some r → ∃ r', s.record p = some r' ∧ r.Gains r' :=
      fun p r hr => ⟨r, hr, .refl r⟩
    cases hnamespace : r.deferredNamespace with
    | some namespaceId =>
      have hload : s.loadDeferred graph path = s.succeed path true namespaceId := by
        simp only [State.loadDeferred, hrecord, hnamespace]
      rw [hload]
      exact succeed_move hasks hawaits (fun _ hp => hp) hsame rfl rfl rfl hrecord hnamespace nofun
    | none =>
      obtain ⟨hrecord₁, hloading₁, hstack₁, hlog₁⟩ := attachDeferred_spec s path r
      have hrefusal : s.refusal graph path true =
          (linkRecord graph (s.attachDeferred path r).1.modules path
            (s.attachDeferred path r).1.heap).2 := by
        simp only [State.refusal, hrecord, hnamespace]
      cases hlink : linkRecord graph (s.attachDeferred path r).1.modules path
          (s.attachDeferred path r).1.heap with
      | mk heap result =>
        rw [hlink] at hrefusal
        cases result with
        | none =>
          have hload : s.loadDeferred graph path =
              State.succeed { (s.attachDeferred path r).1 with heap := heap } path true
                (s.attachDeferred path r).2 := by
            simp only [State.loadDeferred, hrecord, hnamespace, hlink]
          rw [hload]
          have hr' := hrecord₁ path
          rw [if_pos rfl, hrecord, Option.map_some] at hr'
          refine succeed_move hasks hawaits (fun p hp => ?_) (fun p r₀ hr₀ => ?_) hloading₁ hstack₁
            hlog₁ hr' rfl nofun
          · have hlookup := hrecord₁ p
            rw [hp, Option.map_none, ite_self] at hlookup
            exact hlookup
          · have hlookup := hrecord₁ p
            by_cases hpath : p = path
            · subst hpath
              rw [hrecord] at hr₀
              obtain rfl := Option.some.inj hr₀
              refine ⟨_, hr', rfl, rfl, rfl, rfl, rfl, rfl, rfl, fun deferred id hid => ?_⟩
              cases deferred with
              | false => exact hid
              | true =>
                have hid : r.deferredNamespace = some id := hid
                rw [hnamespace] at hid
                cases hid
            · rw [if_neg hpath, hr₀] at hlookup
              exact ⟨r₀, hlookup, .refl r₀⟩
        | some e =>
          have hload : s.loadDeferred graph path =
              (State.modifyRecord { (s.attachDeferred path r).1 with heap := heap } path
                fun record => { record with deferredNamespace := none }).refuse path true e := by
            simp only [State.loadDeferred, hrecord, hnamespace, hlink]
          rw [hload]
          refine refuse_move (funext fun p => ?_) hloading₁ hstack₁ hlog₁ hasks (fun _ _ _ _ => nofun)
            (hfails e hrefusal)
          have hlookup := record_modifyRecord { (s.attachDeferred path r).1 with heap := heap } path
            (fun record => { record with deferredNamespace := none }) p
          have hbefore : State.record { (s.attachDeferred path r).1 with heap := heap } p = _ :=
            hrecord₁ p
          rw [hlookup, hbefore]
          by_cases hpath : p = path
          · rw [if_pos hpath, if_pos hpath, hpath, hrecord]
            -- There was no deferred namespace before.
            simp only [Option.map_some, Option.some.injEq]
            rw [← hnamespace]
          · rw [if_neg hpath, if_neg hpath]

theorem load_move (h : Inv graph s) {path : P} {deferred : Bool}
    (hasks : s.asks graph label = some (path, deferred))
    (hawaits : Awaits graph s.stack path deferred)
    (hfails : ∀ e, s.refusal graph path deferred = some e →
      s.failure graph label = some e ∨ Frame.abandoned s.stack = []) :
    Move graph s label (s.load graph deferred path) := by
  cases deferred with
  | true => exact loadDeferred_move hasks hawaits hfails
  | false => exact loadAndEvaluate_move h hasks hawaits hfails

omit [DecidableEq P] [DecidableEq S] in
/-- Running code may ask for anything, and no load fails with it. -/
theorem atCode_awaits (h : s.atCode = true) (graph : Graph P S) (path : P) (deferred : Bool) :
    Awaits graph s.stack path deferred ∧ Frame.abandoned s.stack = [] := by
  cases hstack : s.stack with
  | nil => exact ⟨trivial, rfl⟩
  | cons f rest =>
    cases f with
    | body => exact ⟨trivial, rfl⟩
    | _ =>
      simp only [State.atCode, hstack] at h
      cases h

/-- The frame on top makes its next request. -/
theorem asks_move (h : Inv graph s) {path : P} {deferred : Bool}
    (hstep : s.advance graph = s.load graph deferred path)
    (hasks : s.asks graph (.advance : Label P V) = some (path, deferred))
    (hawaits : Awaits graph s.stack path deferred)
    (hfails : s.failure graph (.advance : Label P V) = s.refusal graph path deferred) :
    Move graph s (.advance : Label P V) (s.advance graph) := by
  rw [hstep]
  exact load_move h hasks hawaits fun e he => .inl (hfails.trans he)

/-- An eager load makes its next request, or links and starts its body. -/
theorem advanceEager_move (h : Inv graph s) {path : P} {module : Module S} {namespaceId : Nat}
    {todo : List (S × Bool)}
    {rest : List (Frame P S)} (hstack : s.stack = .eager path module namespaceId todo :: rest) :
    Move graph s (.advance : Label P V) (s.advance graph) := by
  cases todo with
  | cons r todo =>
    obtain ⟨specifier, deferred⟩ := r
    have hstep : s.advance graph = s.load graph deferred (graph.resolve path specifier) := by
      simp only [State.advance, hstack]
    exact asks_move h hstep (by simp only [State.asks, hstack])
      (by rw [hstack]; exact ⟨rfl, rfl⟩) (by simp only [State.failure, hstack])
  | nil =>
    cases hlink : linkRecord graph s.modules path s.heap with
    | mk heap result =>
      cases result with
      | some e =>
        have hstep : s.advance graph = State.fail { s with heap := heap } e := by
          simp only [State.advance, hstack, hlink]
        rw [hstep]
        refine fail_move rfl rfl rfl rfl ?_
        simp only [State.failure, hstack, hlink]
      | none =>
        have hstep : s.advance graph =
            ((State.emit { s with heap := heap, stack := .body path module namespaceId :: rest }
              (.linked path)).emit (.started path)) := by
          simp only [State.advance, hstack, hlink]
        rw [hstep]
        refine .start path module namespaceId rest hstack (by rw [hlink]) rfl rfl rfl ?_
        simp [State.emit]

/-- A deferred load makes its next request, or links and starts to gather. -/
theorem advanceDeferred_move (h : Inv graph s) {path : P} {module : Module S}
    {todo : List (S × Bool)}
    {rest : List (Frame P S)} (hstack : s.stack = .deferred path module todo :: rest) :
    Move graph s (.advance : Label P V) (s.advance graph) := by
  cases todo with
  | cons r todo =>
    obtain ⟨specifier, phase⟩ := r
    have hstep : s.advance graph = s.load graph true (graph.resolve path specifier) := by
      simp only [State.advance, hstack]
    exact asks_move h hstep (by simp only [State.asks, hstack])
      (by rw [hstack]; exact ⟨rfl, rfl⟩) (by simp only [State.failure, hstack])
  | nil =>
    cases hlink : linkRecord graph s.modules path s.heap with
    | mk heap result =>
      cases result with
      | some e =>
        have hstep : s.advance graph = State.fail { s with heap := heap } e := by
          simp only [State.advance, hstack, hlink]
        rw [hstep]
        refine fail_move rfl rfl rfl rfl ?_
        simp only [State.failure, hstack, hlink]
      | none =>
        have hstep : s.advance graph =
            State.emit { s with heap := heap, stack := .gather path [path] [] [] :: rest }
              (.linked path) := by
          simp only [State.advance, hstack, hlink]
        rw [hstep]
        exact .gathers path module rest hstack rfl rfl rfl rfl

/-- Gathering looks at the next module, reads it and notes the asynchronous ones. -/
theorem advanceGather_move {path : P} {pending seen targets : List P}
    {rest : List (Frame P S)} (hstack : s.stack = .gather path pending seen targets :: rest) :
    Move graph s (.advance : Label P V) (s.advance graph) := by
  cases pending with
  | nil =>
    have hstep : s.advance graph = { s with stack := .targets path targets :: rest } := by
      simp only [State.advance, hstack]
    rw [hstep]
    exact .works path [] seen targets _ rest hstack (.inr rfl) rfl rfl rfl rfl
  | cons next pending =>
    by_cases hseen : next ∈ seen
    · have hstep : s.advance graph =
          { s with stack := .gather path pending seen targets :: rest } := by
        simp only [State.advance, hstack, if_pos hseen]
      rw [hstep]
      exact .works path _ _ _ _ rest hstack (.inl ⟨_, _, _, rfl⟩) rfl rfl rfl rfl
    by_cases hknown : ((s.record next).any LinkedModule.evaluated) ∨ next ∈ s.loading
    · have hstep : s.advance graph =
          { s with stack := .gather path pending (next :: seen) targets :: rest } := by
        simp only [State.advance, hstack, if_neg hseen, if_pos hknown]
      rw [hstep]
      exact .works path _ _ _ _ rest hstack (.inl ⟨_, _, _, rfl⟩) rfl rfl rfl rfl
    cases hread : graph.read next with
    | error message =>
      have hstep : s.advance graph = s.fail (.notRead message) := by
        simp only [State.advance, hstack, if_neg hseen, if_neg hknown, hread]
      rw [hstep]
      refine fail_move rfl rfl rfl rfl ?_
      have hnone : ¬ (next ∈ seen ∨ (s.record next).any LinkedModule.evaluated ∨
          next ∈ s.loading) := fun hany => hany.elim hseen hknown
      simp only [State.failure, hstack, if_neg hnone, readFailure, hread]
    | ok module =>
      by_cases hasync : module.isAsync = true
      · have hstep : s.advance graph = { s with
            stack := .gather path pending (next :: seen) (targets ++ [next]) :: rest } := by
          simp only [State.advance, hstack, if_neg hseen, if_neg hknown, hread, if_pos hasync]
        rw [hstep]
        exact .works path _ _ _ _ rest hstack (.inl ⟨_, _, _, rfl⟩) rfl rfl rfl rfl
      · have hstep : s.advance graph = { s with
            stack := .gather path
              ((requests module).map (fun r => graph.resolve next r.1) ++ pending)
              (next :: seen) targets :: rest } := by
          simp only [State.advance, hstack, if_neg hseen, if_neg hknown, hread, if_neg hasync]
        rw [hstep]
        exact .works path _ _ _ _ rest hstack (.inl ⟨_, _, _, rfl⟩) rfl rfl rfl rfl

/-- The targets are loaded one by one, then the deferred request is answered. -/
theorem advanceTargets_move (h : Inv graph s) {path : P} {todo : List P}
    {rest : List (Frame P S)} (hstack : s.stack = .targets path todo :: rest) :
    Move graph s (.advance : Label P V) (s.advance graph) := by
  cases todo with
  | cons target todo =>
    have hstep : s.advance graph = s.load graph false target := by
      simp only [State.advance, hstack]
    exact asks_move h hstep (by simp only [State.asks, hstack])
      (by rw [hstack]; exact ⟨rfl, rfl⟩) (by simp only [State.failure, hstack])
  | nil =>
    cases hr : s.record path with
    | none =>
      have hstep : s.advance graph = { s with panicked := true } := by
        simp only [State.advance, hstack, hr, Option.bind_none]
      rw [hstep]
      exact .idle rfl rfl rfl rfl
    | some r =>
      cases hnamespace : r.deferredNamespace with
      | none =>
        have hstep : s.advance graph = { s with panicked := true } := by
          simp only [State.advance, hstack, hr, Option.bind_some, hnamespace]
        rw [hstep]
        exact .idle rfl rfl rfl rfl
      | some namespaceId =>
        have hstep : s.advance graph =
            State.succeed { s with stack := rest } path true namespaceId := by
          simp only [State.advance, hstack, hr, Option.bind_some, hnamespace]
        rw [hstep]
        refine .returns path namespaceId r rest (by simp only [State.asks, hstack]) hstack hr
          hnamespace rfl rfl rfl ?_
        have hsame : State.record { s with stack := rest } path = some r := hr
        simp only [State.succeed, State.emit, hsame, Option.map_some]

/-- The frame on top goes on, by its kind. -/
theorem advance_move (h : Inv graph s) :
    Move graph s (.advance : Label P V) (s.advance graph) := by
  cases hstack : s.stack with
  | nil =>
    have hstep : s.advance graph = s := by simp only [State.advance, hstack]
    rw [hstep]
    exact .idle rfl rfl rfl rfl
  | cons f rest =>
    cases f with
    | body path module namespaceId =>
      have hstep : s.advance graph = s := by simp only [State.advance, hstack]
      rw [hstep]
      exact .idle rfl rfl rfl rfl
    | eager path module namespaceId todo =>
      exact advanceEager_move h hstack
    | deferred path module todo =>
      exact advanceDeferred_move h hstack
    | gather path pending seen targets =>
      exact advanceGather_move hstack
    | targets path todo =>
      exact advanceTargets_move h hstack

/-- A body completes, is suspended or throws. -/
theorem bodyEnds_move (outcome : Outcome V) :
    Move graph s (.bodyEnds outcome) (s.bodyEnds outcome) := by
  by_cases htop : ∃ path module namespaceId rest, s.stack = .body path module namespaceId :: rest
  · obtain ⟨path, module, namespaceId, rest, hstack⟩ := htop
    cases outcome with
    | completes =>
      have hstep : s.bodyEnds .completes =
          (((State.modifyRecord { s with stack := rest } path
            fun record => { record with evaluated := true }).leave path).emit
              (.completed path)).succeed path false namespaceId := by
        simp only [State.bodyEnds, hstack]
      rw [hstep]
      refine .ends path module namespaceId rest false ⟨hstack, fun p => ?_, rfl, rfl, ?_⟩
      · exact record_modifyRecord { s with stack := rest } path
          (fun record => { record with evaluated := true }) p
      · exact bodyEnds_log s path rest (fun record => { record with evaluated := true }) (fun _ => rfl)
          (.completed path) namespaceId
    | suspends =>
      by_cases hasync : module.isAsync = true
      · have hstep : s.bodyEnds .suspends =
            (((State.modifyRecord { s with stack := rest } path
              fun record => { record with tlaPending := true }).leave path).emit
                (.suspended path)).succeed path false namespaceId := by
          simp only [State.bodyEnds, hstack, if_pos hasync]
        rw [hstep]
        refine .ends path module namespaceId rest true ⟨hstack, fun p => ?_, rfl, rfl, ?_⟩
        · exact record_modifyRecord { s with stack := rest } path
            (fun record => { record with tlaPending := true }) p
        · exact bodyEnds_log s path rest (fun record => { record with tlaPending := true }) (fun _ => rfl)
            (.suspended path) namespaceId
      · have hstep : s.bodyEnds .suspends =
            { s with stack := .body path module namespaceId :: rest } := by
          simp only [State.bodyEnds, hstack, if_neg hasync]
        rw [hstep, ← hstack]
        exact .idle rfl rfl rfl rfl
    | throws v =>
      have hstep : s.bodyEnds (.throws v) =
          ((((State.leave { s with stack := rest } path).modifyRecord path fun record =>
            { record with cachedError := some (.thrown v), tlaPending := false }).emit
              (.threw path (.thrown v))).emit (.refused path false (.thrown v))).unwind
                (.thrown v) rest := by
        simp only [State.bodyEnds, hstack]
        rfl
      rw [hstep]
      refine .throws path module namespaceId rest v rfl
        ⟨hstack, fun p => ?_, ?_, unwind_stack _ rest _, ?_⟩
      · rw [unwind_record]
        exact congrArg (ite _ none) (record_modifyRecord (State.leave { s with stack := rest } path)
          path (fun record => { record with cachedError := some (.thrown v), tlaPending := false })
          p)
      · rw [unwind_loading]
        rfl
      · rw [unwind_log]
        simp [State.emit, State.modifyRecord, State.leave]
  · have hstep : s.bodyEnds outcome = s := by
      cases hstack : s.stack with
      | nil => simp only [State.bodyEnds, hstack]
      | cons f rest =>
        cases f with
        | body path module namespaceId => exact absurd ⟨_, _, _, _, hstack⟩ htop
        | _ => simp only [State.bodyEnds, hstack]
    rw [hstep]
    exact .idle rfl rfl rfl rfl

/-- The first use of a deferred namespace asks for the module. -/
theorem ensureDeferred_move (h : Inv graph s) {path : P}
    (hasks : s.asks graph label = some (path, false)) (hcode : s.atCode = true) :
    Move graph s label (s.ensureDeferred graph path) := by
  obtain ⟨hawaits, hnothing⟩ := atCode_awaits hcode graph path false
  cases hrecord : s.record path with
  | none =>
    have hstep : s.ensureDeferred graph path = s := by
      simp only [State.ensureDeferred, hrecord]
    rw [hstep]
    exact .idle rfl rfl rfl rfl
  | some r =>
    cases hcached : r.cachedError with
    | some e =>
      have hstep : s.ensureDeferred graph path = s.emit (.refused path true e) := by
        simp only [State.ensureDeferred, hrecord, hcached]
      rw [hstep]
      refine .refuse path true e rfl rfl rfl rfl fun r' e' hr' he' => ?_
      rw [hrecord] at hr'
      obtain rfl := Option.some.inj hr'
      rw [hcached] at he'
      exact Option.some.inj he'
    | none =>
      by_cases hevaluated : r.evaluated = true
      · have hstep : s.ensureDeferred graph path = s := by
          simp only [State.ensureDeferred, hrecord, hcached, if_pos hevaluated]
        rw [hstep]
        exact .idle rfl rfl rfl rfl
      by_cases hactive : path ∈ s.loading ∨ r.tlaPending = true
      · have hstep : s.ensureDeferred graph path = s.emit (.refused path true .alreadyEvaluating) := by
          simp only [State.ensureDeferred, hrecord, hcached, if_neg hevaluated, if_pos hactive]
        rw [hstep]
        refine .refuse path true _ rfl rfl rfl rfl fun r' e' hr' he' => ?_
        rw [hrecord] at hr'
        obtain rfl := Option.some.inj hr'
        rw [hcached] at he'
        cases he'
      · have hstep : s.ensureDeferred graph path = s.load graph false path := by
          simp only [State.ensureDeferred, hrecord, hcached, if_neg hevaluated, if_neg hactive]
        rw [hstep]
        exact load_move h hasks hawaits fun _ _ => .inr hnothing

omit [DecidableEq S] in
theorem countP_pos_of_lt {path : P} {log : List (Event P S V)}
    (h : log.countP (Event.isSettled path) < log.countP (Event.isSuspended path)) :
    .suspended path ∈ log := by
  obtain ⟨event, hmem, hevent⟩ := List.countP_pos_iff.mp (Nat.zero_lt_of_lt h)
  cases event with
  | suspended p =>
    have hp : p = path := by simpa [Event.isSuspended] using hevent
    rw [← hp]
    exact hmem
  | _ => cases hevent

theorem Move.of_job {s' : State P S V} {path : P} {jobs : List P} (hstack : s.stack = [])
    (hjobs : s.jobs = path :: jobs)
    (h : Move graph { s with jobs := jobs } (.request false path) s') :
    Move graph s .runJob s' := by
  have hasks : ∀ p deferred,
      State.asks graph { s with jobs := jobs } (.request false path) = some (p, deferred) →
      s.asks graph .runJob = some (p, deferred) := by
    intro p deferred hasks
    simp only [State.asks, hstack] at hasks
    simp only [State.asks, hstack, hjobs]
    exact hasks
  cases h with
  | idle h₁ h₂ h₃ h₄ => exact .idle h₁ h₂ h₃ h₄
  | refuse p d e h₁ h₂ h₃ h₄ h₅ => exact .refuse p d e h₁ h₂ h₃ h₄ h₅
  | settle p e hlabel => obtain ⟨_, ⟨⟩⟩ := hlabel
  | answer p d id r' hask h => exact .answer p d id r' (hasks p d hask) { h with }
  | pushEager p m id r h => exact .pushEager p m id r { h with }
  | pushDeferred p m r h => exact .pushDeferred p m r { h with }
  | start p m id rest htop => exact absurd (hstack.symm.trans htop) nofun
  | gathers p m rest htop => exact absurd (hstack.symm.trans htop) nofun
  | works p pending seen targets f' rest htop => exact absurd (hstack.symm.trans htop) nofun
  | returns p id r rest _ htop => exact absurd (hstack.symm.trans htop) nofun
  | ends p m id rest suspends h => exact absurd (hstack.symm.trans h.top) nofun
  | throws p m id rest v hlabel => cases hlabel
  | fails e before _ h₂ h =>
    refine .fails e before (.inr ?_) ?_ { h with }
    · simp [Frame.abandoned, hstack]
    · rcases h₂ with hnil | ⟨p, d, hbefore, hask, hcached⟩
      · exact .inl hnil
      · exact .inr ⟨p, d, hbefore, hasks p d hask, hcached⟩

/-- **Every step is a move.** -/
theorem step_move (h : Inv graph s) (label : Label P V) :
    Move graph s label (step graph s label) := by
  by_cases hpanicked : s.panicked = true
  · have hstep : step graph s label = s := by simp only [step, hpanicked, if_true]
    rw [hstep]
    exact .idle rfl rfl rfl rfl
  cases label with
  | request deferred path =>
    cases hstack : s.stack with
    | nil =>
      have hcode : s.atCode = true := by simp only [State.atCode, hstack]
      obtain ⟨hawaits, hnothing⟩ := atCode_awaits hcode graph path deferred
      have hstep : step graph s (.request deferred path) = s.load graph deferred path := by
        simp only [step, if_neg hpanicked, hstack]
      rw [hstep]
      exact load_move h (by simp only [State.asks, hstack]) hawaits fun _ _ => .inr hnothing
    | cons f rest =>
      have hstep : step graph s (.request deferred path) = s := by
        simp only [step, if_neg hpanicked, hstack]
      rw [hstep]
      exact .idle rfl rfl rfl rfl
  | importCall path =>
    by_cases hcode : s.atCode = true
    · have hstep : step graph s (.importCall path) = { s with jobs := s.jobs ++ [path] } := by
        simp only [step, if_neg hpanicked, if_pos hcode]
      rw [hstep]
      exact .idle rfl rfl rfl rfl
    · have hstep : step graph s (.importCall path) = s := by
        simp only [step, if_neg hpanicked, if_neg hcode]
      rw [hstep]
      exact .idle rfl rfl rfl rfl
  | runJob =>
    by_cases hjob : ∃ path jobs, s.stack = [] ∧ s.jobs = path :: jobs
    · obtain ⟨path, jobs, hstack, hjobs⟩ := hjob
      have hstep : step graph s .runJob = State.load graph { s with jobs := jobs } false path := by
        simp only [step, if_neg hpanicked, hstack, hjobs]
      rw [hstep]
      have hinv : Inv graph { s with jobs := jobs } :=
        ⟨h.loading, h.nodup, h.read, h.status, h.givenRead, fun above f below hsplit =>
          (h.good above f below hsplit).mono (fun _ _ r hr hfresh heager => ⟨r, hr, hfresh, heager⟩)
            (fun _ hevent => hevent) fun _ r hr hsettled howns => ⟨r, hr, hsettled, howns⟩⟩
      have hcode : State.atCode { s with jobs := jobs } = true := by
        simp only [State.atCode, hstack]
      obtain ⟨hawaits, hnothing⟩ := atCode_awaits hcode graph path false
      refine Move.of_job hstack hjobs (load_move hinv ?_ hawaits fun _ _ => .inr hnothing)
      simp only [State.asks, hstack]
    · have hstep : step graph s .runJob = s := by
        cases hstack : s.stack with
        | cons f rest => simp only [step, if_neg hpanicked, hstack]
        | nil =>
          cases hjobs : s.jobs with
          | nil => simp only [step, if_neg hpanicked, hstack, hjobs]
          | cons path jobs => exact absurd ⟨path, jobs, hstack, hjobs⟩ hjob
      rw [hstep]
      exact .idle rfl rfl rfl rfl
  | advance =>
    have hstep : step graph s .advance = s.advance graph := by
      simp only [step, if_neg hpanicked]
    rw [hstep]
    exact advance_move h
  | observe namespaceId =>
    by_cases hcode : s.atCode = true
    · cases hmodule : s.moduleOf namespaceId with
      | none =>
        have hstep : step graph s (.observe namespaceId) = s := by
          simp only [step, if_neg hpanicked, if_pos hcode, hmodule]
        rw [hstep]
        exact .idle rfl rfl rfl rfl
      | some path =>
        have hstep : step graph s (.observe namespaceId) = s.ensureDeferred graph path := by
          simp only [step, if_neg hpanicked, if_pos hcode, hmodule]
        rw [hstep]
        refine ensureDeferred_move h ?_ hcode
        simp only [State.asks, if_pos hcode, hmodule, Option.map_some]
    · have hstep : step graph s (.observe namespaceId) = s := by
        simp only [step, if_neg hpanicked, if_neg hcode]
      rw [hstep]
      exact .idle rfl rfl rfl rfl
  | bodyEnds outcome =>
    have hstep : step graph s (.bodyEnds outcome) = s.bodyEnds outcome := by
      simp only [step, if_neg hpanicked]
    rw [hstep]
    exact bodyEnds_move outcome
  | settles path thrown =>
    by_cases hcount : s.log.countP (Event.isSettled path) < s.log.countP (Event.isSuspended path)
    · have hstep : step graph s (.settles path thrown) =
          s.emit (.settled path (thrown.map .thrown)) := by
        simp only [step, if_neg hpanicked, if_pos hcount]
      rw [hstep]
      exact .settle path _ ⟨thrown, rfl⟩ rfl rfl rfl rfl (countP_pos_of_lt hcount)
    · have hstep : step graph s (.settles path thrown) = s := by
        simp only [step, if_neg hpanicked, if_neg hcount]
      rw [hstep]
      exact .idle rfl rfl rfl rfl
  | assign path slot v =>
    have hstep : step graph s (.assign path slot v) = s.assign path slot v := by
      simp only [step, if_neg hpanicked]
    rw [hstep]
    have hassign : s.assign path slot v = { s with heap := (s.assign path slot v).heap } := by
      unfold State.assign
      split
      · rfl
      · split
        · split <;> rfl
        · rfl
    rw [hassign]
    exact .idle rfl rfl rfl rfl

end V12.ModuleLoader
