/-
V12.Engine.ModuleIdentity — when a path keeps one namespace, one start and one failure.

§1 says what should hold of the log, and what a step must meet for it. §2 is the
invariant that ties the log to the map, §3 takes the moves, §4 the runs.
-/
import Mathlib.Data.List.TakeWhile
import V12.Engine.ModuleOrder

namespace V12.ModuleLoader

open V12.ModulePlan V12.ModuleNamespace

variable {P S V : Type}

/-! ## §1 Statements -/

def Event.Fails (event : Event P S V) (path : P) (e : Failure S V) : Prop :=
  event = .threw path e ∨ event = .settled path (some e)

def Reports (a b : Event P S V) : Prop :=
  ∀ path e, a.Fails path e →
    (∀ deferred namespaceId env, b ≠ .given path deferred namespaceId env) ∧
      ∀ deferred e', b = .refused path deferred e' → e' = e

def Agree (a b : Event P S V) : Prop :=
  ∀ path deferred namespaceId env deferred' namespaceId' env',
    a = .given path deferred namespaceId env → b = .given path deferred' namespaceId' env' →
    env = env' ∧ (deferred = deferred' → namespaceId = namespaceId')

structure Fine [DecidableEq P] (s : State P S V) : Prop where
  /-- The body of a path is started at most once. -/
  once : s.log.Pairwise fun a b => ∀ path, a = .started path → b ≠ .started path
  /-- Every answer for a path has one environment, with its cells, and one namespace a phase. -/
  same : ∀ a ∈ s.log, ∀ b ∈ s.log, Agree a b
  reports : s.log.Pairwise Reports
  /-- A body that completed, also behind a top-level await, is recorded. -/
  recorded : ∀ path, .completed path ∈ s.log ∨ .settled path none ∈ s.log →
    ∃ r, s.record path = some r ∧ r.evaluated = true

/-- The event says that the path was answered for, or that its body was started. -/
def Event.notes (event : Event P S V) (path : P) : Prop :=
  event = .started path ∨ ∃ deferred namespaceId env, event = .given path deferred namespaceId env

variable [DecidableEq P]
variable {graph : Graph P S} {s s' : State P S V} {label : Label P V} {path : P}

/-- What a step must meet. A deferred request is not answered for a module whose evaluation
failed; no suspended body settles; and a failing step gives up only modules that were not
answered for and not started, and reports no other failure for one that failed. -/
structure Met (graph : Graph P S) (s : State P S V) (label : Label P V) : Prop where
  deferred : ∀ path, s.asks graph label = some (path, true) → ∀ r, s.record path = some r →
    r.cachedError = none
  settles : ∀ path thrown, label = .settles path thrown → .suspended path ∉ s.log
  gone : ∀ e, s.failure graph label = some e → ∀ f ∈ s.givesUp,
    (∀ path, f.removes = some path → ∀ event ∈ s.log, ¬ event.notes path) ∧
      ∀ r e', s.record f.path = some r → r.cachedError = some e' → e' = e

theorem Met.of_quiet (hasks : ∀ path, s.asks graph label ≠ some (path, true))
    (hsettles : ∀ path thrown, label ≠ .settles path thrown)
    (hfails : s.failure graph label = none) : Met graph s label where
  deferred := fun path hdeferred => absurd hdeferred (hasks path)
  settles := fun path thrown hlabel => absurd hlabel (hsettles path thrown)
  gone := fun e he => by
    rw [hfails] at he
    cases he

/-! ## §2 The log and the map -/

structure Kept (s : State P S V) : Prop where
  given : ∀ path deferred namespaceId env, .given path deferred namespaceId env ∈ s.log →
    ∃ r, s.record path = some r ∧ r.namespaceOf deferred = some namespaceId ∧ env = some r.env
  started : ∀ path, .started path ∈ s.log →
    (∃ r, s.record path = some r ∧ (r.Settled ∨ r.cachedError ≠ none)) ∨
      ∃ module namespaceId, .body path module namespaceId ∈ s.stack
  threw : ∀ path e, .threw path e ∈ s.log → .started path ∈ s.log ∧
    ∃ r, s.record path = some r ∧ r.cachedError = some e
  completed : ∀ path, .completed path ∈ s.log → .started path ∈ s.log ∧
    ∃ r, s.record path = some r ∧ r.evaluated = true
  body : ∀ path module namespaceId, .body path module namespaceId ∈ s.stack →
    .started path ∈ s.log
  unsettled : ∀ path e, .settled path e ∉ s.log
  once : s.log.Pairwise fun a b => ∀ path, a = .started path → b ≠ .started path
  reports : s.log.Pairwise Reports

theorem Kept.fine (h : Kept s) : Fine s where
  once := h.once
  same := by
    rintro a ha b hb path deferred namespaceId env deferred' namespaceId' env' rfl rfl
    obtain ⟨r, hr, hid, henv⟩ := h.given _ _ _ _ ha
    obtain ⟨r', hr', hid', henv'⟩ := h.given _ _ _ _ hb
    rw [hr] at hr'
    obtain rfl := Option.some.inj hr'
    refine ⟨by rw [henv, henv'], ?_⟩
    rintro rfl
    rw [hid] at hid'
    exact Option.some.inj hid'
  reports := h.reports
  recorded := by
    rintro path (hcompleted | hsettled)
    · exact (h.completed path hcompleted).2
    · exact absurd hsettled (h.unsettled path none)

/-- What a record keeps once its path is noted. -/
structure LinkedModule.Keeps (r r' : LinkedModule S V) : Prop where
  env : r'.env = r.env
  evaluated : r.evaluated = true → r'.evaluated = true
  tlaPending : r.tlaPending = true → r'.Settled ∨ r'.cachedError ≠ none
  cachedError : ∀ e, r.cachedError = some e → r'.cachedError = some e
  namespaces : ∀ deferred namespaceId, r.namespaceOf deferred = some namespaceId →
    r'.namespaceOf deferred = some namespaceId

omit [DecidableEq P] in
theorem LinkedModule.Gains.keeps {r r' : LinkedModule S V} (h : r.Gains r') : r.Keeps r' where
  env := h.env
  evaluated := fun he => h.evaluated ▸ he
  tlaPending := fun hp => .inl (.inr (h.tlaPending ▸ hp))
  cachedError := fun _ he => h.cachedError ▸ he
  namespaces := h.namespaces

/-- A new event fits the map behind the step, and the log before it. -/
def Fits (s s' : State P S V) : Event P S V → Prop
  | .linked _ | .suspended _ => True
  | .started path => .started path ∉ s.log ∧
      ∃ module namespaceId, .body path module namespaceId ∈ s'.stack
  | .completed path => .started path ∈ s.log ∧ ∃ r, s'.record path = some r ∧ r.evaluated = true
  | .threw path e => .started path ∈ s.log ∧ ∃ r, s'.record path = some r ∧ r.cachedError = some e
  | .settled _ _ => False
  | .given path deferred namespaceId env => (∀ e, .threw path e ∉ s.log) ∧
      ∃ r, s'.record path = some r ∧ r.namespaceOf deferred = some namespaceId ∧ env = some r.env
  | .refused path _ e => ∀ e', .threw path e' ∈ s.log → e = e'

/-- **The extension rule**: what a step must show. -/
theorem Kept.extend (h : Kept s)
    (hkeeps : ∀ path r, s.record path = some r → (∃ event ∈ s.log, event.notes path) →
      ∃ r', s'.record path = some r' ∧ r.Keeps r')
    (hbody : ∀ path module namespaceId, .body path module namespaceId ∈ s.stack →
      .body path module namespaceId ∈ s'.stack ∨
        ∃ r, s'.record path = some r ∧ (r.Settled ∨ r.cachedError ≠ none))
    {events : List (Event P S V)} (hlog : s'.log = s.log ++ events)
    (hbody' : ∀ path module namespaceId, .body path module namespaceId ∈ s'.stack →
      .started path ∈ s'.log) (hfits : ∀ event ∈ events, Fits s s' event)
    (honce : events.Pairwise fun a b => ∀ path, a = .started path → b ≠ .started path)
    (hreports : events.Pairwise Reports) : Kept s' := by
  have hkept := mem_log_append hlog
  refine ⟨?_, ?_, ?_, ?_, hbody', ?_, ?_, ?_⟩
  · intro path deferred namespaceId env hgiven
    rw [hlog] at hgiven
    rcases List.mem_append.mp hgiven with hold | hnew
    · obtain ⟨r, hr, hid, henv⟩ := h.given _ _ _ _ hold
      obtain ⟨r', hr', hkeep⟩ := hkeeps path r hr ⟨_, hold, .inr ⟨_, _, _, rfl⟩⟩
      exact ⟨r', hr', hkeep.namespaces _ _ hid, by rw [henv, hkeep.env]⟩
    · exact (hfits _ hnew).2
  · intro path hstarted
    rw [hlog] at hstarted
    rcases List.mem_append.mp hstarted with hold | hnew
    · rcases h.started path hold with ⟨r, hr, hstatus⟩ | ⟨module, namespaceId, hmem⟩
      · obtain ⟨r', hr', hkeep⟩ := hkeeps path r hr ⟨_, hold, .inl rfl⟩
        refine .inl ⟨r', hr', ?_⟩
        rcases hstatus with (hevaluated | hpending) | hcached
        · exact .inl (.inl (hkeep.evaluated hevaluated))
        · exact hkeep.tlaPending hpending
        · obtain ⟨e, he⟩ := Option.ne_none_iff_exists'.mp hcached
          exact .inr (by rw [hkeep.cachedError e he]; nofun)
      · rcases hbody path module namespaceId hmem with hstill | hdone
        · exact .inr ⟨module, namespaceId, hstill⟩
        · exact .inl hdone
    · exact .inr (hfits _ hnew).2
  · intro path e hthrew
    rw [hlog] at hthrew
    rcases List.mem_append.mp hthrew with hold | hnew
    · obtain ⟨hstarted, r, hr, he⟩ := h.threw path e hold
      obtain ⟨r', hr', hkeep⟩ := hkeeps path r hr ⟨_, hstarted, .inl rfl⟩
      exact ⟨hkept _ hstarted, r', hr', hkeep.cachedError e he⟩
    · obtain ⟨hstarted, hr⟩ := hfits _ hnew
      exact ⟨hkept _ hstarted, hr⟩
  · intro path hcompleted
    rw [hlog] at hcompleted
    rcases List.mem_append.mp hcompleted with hold | hnew
    · obtain ⟨hstarted, r, hr, he⟩ := h.completed path hold
      obtain ⟨r', hr', hkeep⟩ := hkeeps path r hr ⟨_, hstarted, .inl rfl⟩
      exact ⟨hkept _ hstarted, r', hr', hkeep.evaluated he⟩
    · obtain ⟨hstarted, hr⟩ := hfits _ hnew
      exact ⟨hkept _ hstarted, hr⟩
  · intro path e hsettled
    rw [hlog] at hsettled
    rcases List.mem_append.mp hsettled with hold | hnew
    · exact h.unsettled path e hold
    · exact hfits _ hnew
  · rw [hlog, List.pairwise_append]
    refine ⟨h.once, honce, ?_⟩
    rintro a ha b hb path rfl rfl
    exact (hfits _ hb).1 ha
  · rw [hlog, List.pairwise_append]
    refine ⟨h.reports, hreports, ?_⟩
    rintro a ha b hb path e (rfl | rfl)
    · refine ⟨?_, ?_⟩
      · rintro deferred namespaceId env rfl
        exact (hfits _ hb).1 e ha
      · rintro deferred e' rfl
        exact hfits _ hb e ha
    · exact absurd ha (h.unsettled path (some e))

/-! ## §3 Moves -/

omit [DecidableEq P] in
theorem body_mem_resume_iff {stack : List (Frame P S)} {module : Module S} {namespaceId : Nat} :
    .body path module namespaceId ∈ resume stack ↔ .body path module namespaceId ∈ stack := by
  refine ⟨body_mem_resume, fun h => ?_⟩
  cases stack with
  | nil => exact h
  | cons top rest =>
    rw [resume_cons]
    rcases List.mem_cons.mp h with rfl | hmem
    · exact List.mem_cons_self
    · exact List.mem_cons_of_mem _ hmem

omit [DecidableEq P] in
theorem body_mem_dropWhile {stack : List (Frame P S)} {module : Module S} {namespaceId : Nat}
    (h : .body path module namespaceId ∈ stack) :
    .body path module namespaceId ∈ stack.dropWhile fun f => !f.isCode := by
  rw [← abandoned_append stack] at h
  rcases List.mem_append.mp h with hgone | hstays
  · have hcode := List.mem_takeWhile_imp hgone
    simp [Frame.isCode] at hcode
  · exact hstays

theorem Kept.not_threw (h : Kept s) {r : LinkedModule S V} (hr : s.record path = some r)
    (hcached : r.cachedError = none) (e : Failure S V) :
    .threw path e ∉ s.log := by
  intro hthrew
  obtain ⟨-, r', hr', he⟩ := h.threw path e hthrew
  rw [hr] at hr'
  obtain rfl := Option.some.inj hr'
  rw [hcached] at he
  cases he

omit [DecidableEq P] in
theorem refusals_pairwise (e : Failure S V) (stack : List (Frame P S)) :
    ((stack.map (Frame.refusal e)).Pairwise fun (a b : Event P S V) =>
      ∀ path, a = .started path → b ≠ .started path) ∧
    (stack.map (Frame.refusal e)).Pairwise (Reports : Event P S V → Event P S V → Prop) := by
  have hrefused : ∀ a ∈ stack.map (Frame.refusal (V := V) e), ∃ path deferred,
      a = .refused path deferred e := by
    intro a ha
    obtain ⟨f, -, rfl⟩ := List.mem_map.mp ha
    exact ⟨f.path, f.isDeferred, rfl⟩
  constructor
  · refine List.Pairwise.imp_of_mem (R := fun _ _ => True) ?_ (List.pairwise_of_forall fun _ _ => trivial)
    rintro a b ha - - path rfl
    obtain ⟨_, _, heq⟩ := hrefused _ ha
    cases heq
  · refine List.Pairwise.imp_of_mem (R := fun _ _ => True) ?_ (List.pairwise_of_forall fun _ _ => trivial)
    rintro a b ha - - path e' (rfl | rfl)
    · obtain ⟨_, _, heq⟩ := hrefused _ ha
      cases heq
    · obtain ⟨_, _, heq⟩ := hrefused _ ha
      cases heq

theorem Met.not_gone (hmet : Met graph s label) {e : Failure S V}
    (hfails : s.failure graph label = some e) (hnoted : ∃ event ∈ s.log, event.notes path) :
    path ∉ s.givesUp.filterMap Frame.removes := by
  intro hmem
  obtain ⟨f, hf, hremoves⟩ := List.mem_filterMap.mp hmem
  obtain ⟨event, hevent, hnotes⟩ := hnoted
  exact (hmet.gone e hfails f hf).1 path hremoves event hevent hnotes

theorem Met.refusals_fit (hmet : Met graph s label) (h : Kept s) {e : Failure S V}
    (hfails : s.failure graph label = some e) :
    ∀ event ∈ s.givesUp.map (Frame.refusal e), Fits s s' event := by
  intro event hevent
  obtain ⟨f, hf, rfl⟩ := List.mem_map.mp hevent
  intro e' hthrew
  obtain ⟨-, r, hr, hcached⟩ := h.threw f.path e' hthrew
  exact ((hmet.gone e hfails f hf).2 r e' hr hcached).symm

theorem Kept.extend_one (h : Kept s)
    (hkeeps : ∀ path r, s.record path = some r → (∃ event ∈ s.log, event.notes path) →
      ∃ r', s'.record path = some r' ∧ r.Keeps r')
    (hbody : ∀ path module namespaceId, .body path module namespaceId ∈ s'.stack ↔
      .body path module namespaceId ∈ s.stack)
    (event : Option (Event P S V)) (hlog : s'.log = s.log ++ event.toList)
    (hfits : ∀ e ∈ event, Fits s s' e) : Kept s' := by
  have hpairwise (R : Event P S V → Event P S V → Prop) : event.toList.Pairwise R := by
    cases event with
    | none => exact List.Pairwise.nil
    | some e => exact List.pairwise_singleton R e
  refine h.extend hkeeps (fun p m id hmem => .inl ((hbody p m id).mpr hmem)) hlog ?_
    (fun e he => hfits e (Option.mem_toList.mp he)) (hpairwise _) (hpairwise _)
  exact fun p m id hmem => mem_log_append hlog _ (h.body p m id ((hbody p m id).mp hmem))

/-- A map that is the same keeps its records. -/
theorem keeps_of_record_eq (hrecord : s'.record = s.record) :
    ∀ path r, s.record path = some r → (∃ event ∈ s.log, event.notes path) →
      ∃ r', s'.record path = some r' ∧ r.Keeps r' := by
  intro path r hr _
  exact ⟨r, by rw [hrecord]; exact hr, (LinkedModule.Gains.refl r).keeps⟩

variable [DecidableEq S]

/-- A body starts: the record of its load has no status yet, and no other frame loads it. -/
theorem Kept.start (hinv : Inv graph s) (h : Kept s) {module : Module S} {namespaceId : Nat}
    {rest : List (Frame P S)} (htop : s.stack = .eager path module namespaceId [] :: rest)
    (hrecord : s'.record = s.record) (hstack : s'.stack = .body path module namespaceId :: rest)
    (hlog : s'.log = s.log ++ ([.linked path, .started path] : List (Event P S V))) : Kept s' := by
  obtain ⟨r, hr, hfresh, -⟩ := (hinv.good [] _ rest htop).active path rfl
  have hfirst : .started path ∉ s.log := by
    intro hstarted
    rcases h.started path hstarted with ⟨r', hr', hstatus⟩ | ⟨m, id, hmem⟩
    · rw [hr] at hr'
      obtain rfl := Option.some.inj hr'
      rcases hstatus with (hevaluated | hpending) | hcached
      · rw [hfresh.evaluated] at hevaluated
        cases hevaluated
      · rw [hfresh.tlaPending] at hpending
        cases hpending
      · exact hcached hfresh.cachedError
    · rw [htop] at hmem
      rcases List.mem_cons.mp hmem with heq | hmem
      · cases heq
      · have hnodup := hinv.nodup
        rw [hinv.loading, htop] at hnodup
        exact (List.nodup_cons.mp hnodup).1 (List.mem_filterMap.mpr ⟨_, hmem, rfl⟩)
  refine h.extend (keeps_of_record_eq hrecord) ?_ hlog ?_ ?_ ?_ ?_
  · rw [hstack, htop]
    intro p m id hmem
    rcases List.mem_cons.mp hmem with heq | hmem
    · cases heq
    · exact .inl (List.mem_cons_of_mem _ hmem)
  · rw [hstack]
    intro p m id hmem
    rcases List.mem_cons.mp hmem with heq | hmem
    · obtain ⟨rfl, -⟩ := Frame.body.inj heq
      rw [hlog]
      simp
    · exact mem_log_append hlog _ (h.body p m id (by rw [htop]; exact List.mem_cons_of_mem _ hmem))
  · intro event hevent
    rcases List.mem_cons.mp hevent with rfl | hevent
    · trivial
    · obtain rfl := List.mem_singleton.mp hevent
      exact ⟨hfirst, module, namespaceId, by rw [hstack]; exact List.mem_cons_self⟩
  · simp
  · simp [Reports, Event.Fails]

theorem Kept.ends (hinv : Inv graph s) (h : Kept s) {module : Module S} {namespaceId : Nat}
    {rest : List (Frame P S)} {suspends : Bool}
    (hends : Move.Ends s s' path module namespaceId rest suspends) : Kept s' := by
  obtain ⟨htop, hrecord, -, hstack, hlog⟩ := hends
  obtain ⟨r, hr, hfresh, hid⟩ := (hinv.good [] _ rest htop).active path rfl
  have hstarted : .started path ∈ s.log := h.body path module namespaceId (by rw [htop]; simp)
  have hr' : s'.record path = some
      (if suspends then { r with tlaPending := true } else { r with evaluated := true }) := by
    rw [hrecord, if_pos rfl, hr]
    rfl
  rw [hr] at hlog
  refine h.extend ?_ ?_ hlog ?_ ?_ ?_ ?_
  · intro p r₀ hr₀ _
    by_cases hp : p = path
    · rw [hp] at hr₀ ⊢
      rw [hr] at hr₀
      obtain rfl := Option.some.inj hr₀
      refine ⟨_, hr', ?_⟩
      cases suspends with
      | true =>
        exact ⟨rfl, fun he => he, fun _ => .inl (.inr rfl), fun _ he => he, fun _ _ hid => hid⟩
      | false =>
        exact ⟨rfl, fun _ => rfl, fun _ => .inl (.inl rfl), fun _ he => he, fun _ _ hid => hid⟩
    · exact ⟨r₀, by rw [hrecord, if_neg hp, hr₀], (LinkedModule.Gains.refl r₀).keeps⟩
  · rw [hstack, htop]
    intro p m id hmem
    rcases List.mem_cons.mp hmem with heq | hmem
    · obtain ⟨rfl, -⟩ := Frame.body.inj heq
      refine .inr ⟨_, hr', .inl ?_⟩
      cases suspends with
      | true => exact .inr rfl
      | false => exact .inl rfl
    · exact .inl (body_mem_resume_iff.mpr hmem)
  · rw [hstack]
    intro p m id hmem
    exact mem_log_append hlog _
      (h.body p m id (by rw [htop]; exact List.mem_cons_of_mem _ (body_mem_resume hmem)))
  · intro event hevent
    rcases List.mem_cons.mp hevent with rfl | hevent
    · cases suspends with
      | true => trivial
      | false => exact ⟨hstarted, _, hr', rfl⟩
    · obtain rfl := List.mem_singleton.mp hevent
      refine ⟨h.not_threw hr hfresh.cachedError, _, hr', ?_, ?_⟩
      · cases suspends with
        | true => exact hid
        | false => exact hid
      · cases suspends with
        | true => rfl
        | false => rfl
  · cases suspends <;> simp
  · cases suspends <;> simp [Reports, Event.Fails]

/-- A body throws: its record keeps the error, and the loads above the next code refuse with it. -/
theorem Kept.throws (hinv : Inv graph s) (h : Kept s) (hmet : Met graph s label)
    {module : Module S} {namespaceId : Nat} {rest : List (Frame P S)} {v : V}
    (hlabel : label = .bodyEnds (.throws v))
    (hthrows : Move.Throws s s' path module namespaceId rest v) : Kept s' := by
  obtain ⟨htop, hrecord, -, hstack, hlog⟩ := hthrows
  obtain ⟨r, hr, hfresh, -⟩ := (hinv.good [] _ rest htop).active path rfl
  have hstarted : .started path ∈ s.log := h.body path module namespaceId (by rw [htop]; simp)
  have hfails : s.failure graph label = some (.thrown v) := by
    rw [hlabel]
    simp only [State.failure, htop]
  have hgivesUp : s.givesUp = Frame.abandoned rest := by
    simp only [State.givesUp, htop]
  have hremoved : ∀ p, (∃ event ∈ s.log, event.notes p) →
      p ∉ (Frame.abandoned rest).filterMap Frame.removes := by
    intro p hnoted
    rw [← hgivesUp]
    exact hmet.not_gone hfails hnoted
  have hrefusals : ∀ event ∈ (Frame.abandoned rest).map (Frame.refusal (.thrown v)),
      Fits s s' event := by
    rw [← hgivesUp]
    exact hmet.refusals_fit h hfails
  have hr' : s'.record path =
      some { r with cachedError := some (.thrown v), tlaPending := false } := by
    rw [hrecord, if_neg (hremoved path ⟨_, hstarted, .inl rfl⟩), if_pos rfl, hr]
    rfl
  rw [List.append_assoc] at hlog
  obtain ⟨honce, hreports⟩ := refusals_pairwise (V := V) (.thrown v) (Frame.abandoned rest)
  have hrefused : ∀ a ∈ (Frame.abandoned rest).map (Frame.refusal (V := V) (.thrown v)),
      ∃ p deferred, a = .refused p deferred (.thrown v) := by
    intro a ha
    obtain ⟨f, -, rfl⟩ := List.mem_map.mp ha
    exact ⟨f.path, f.isDeferred, rfl⟩
  refine h.extend ?_ ?_ hlog ?_ ?_ ?_ ?_
  · intro p r₀ hr₀ hnoted
    by_cases hp : p = path
    · rw [hp] at hr₀ ⊢
      rw [hr] at hr₀
      obtain rfl := Option.some.inj hr₀
      refine ⟨_, hr', rfl, fun he => he, fun _ => .inr (Option.some_ne_none _),
        fun e he => ?_, fun _ _ hid => hid⟩
      rw [hfresh.cachedError] at he
      cases he
    · exact ⟨r₀, by rw [hrecord, if_neg (hremoved p hnoted), if_neg hp, hr₀],
        (LinkedModule.Gains.refl r₀).keeps⟩
  · rw [hstack, htop]
    intro p m id hmem
    rcases List.mem_cons.mp hmem with heq | hmem
    · obtain ⟨rfl, -⟩ := Frame.body.inj heq
      exact .inr ⟨_, hr', .inr (Option.some_ne_none _)⟩
    · exact .inl (body_mem_dropWhile hmem)
  · rw [hstack]
    intro p m id hmem
    refine mem_log_append hlog _ (h.body p m id ?_)
    rw [htop]
    exact List.mem_cons_of_mem _ ((List.dropWhile_suffix _).subset hmem)
  · intro event hevent
    rcases List.mem_append.mp hevent with hevent | hevent
    · rcases List.mem_cons.mp hevent with rfl | hevent
      · exact ⟨hstarted, _, hr', rfl⟩
      · obtain rfl := List.mem_singleton.mp hevent
        exact fun e' hthrew => absurd hthrew (h.not_threw hr hfresh.cachedError e')
    · exact hrefusals event hevent
  · refine List.pairwise_append.mpr ⟨by simp, honce, ?_⟩
    rintro a ha b hb p rfl
    simp at ha
  · refine List.pairwise_append.mpr ⟨?_, hreports, ?_⟩
    · simp [Reports, Event.Fails]
    · rintro a ha b hb p e hfailed
      obtain ⟨q, deferred, rfl⟩ := hrefused b hb
      refine ⟨(fun _ _ _ heq => by cases heq), ?_⟩
      rintro deferred' e' ⟨⟩
      rcases List.mem_cons.mp ha with rfl | ha
      · rcases hfailed with heq | heq
        · exact (Event.threw.inj heq).2
        · cases heq
      · obtain rfl := List.mem_singleton.mp ha
        rcases hfailed with heq | heq
        · cases heq
        · cases heq

omit [DecidableEq S] in
/-- A load fails: the request is refused, and so are the loads above the next code. -/
theorem Kept.fails (h : Kept s) (hmet : Met graph s label) {e : Failure S V}
    {before : List (Event P S V)}
    (hfails : s.failure graph label = some e ∨ Frame.abandoned s.stack = [])
    (hbefore : before = [] ∨ ∃ path deferred, before = [.refused path deferred e] ∧
      s.asks graph label = some (path, deferred) ∧
      ∀ r e', s.record path = some r → r.cachedError = some e' → deferred = false → e = e')
    (hmoves : Move.Fails s s' e before) : Kept s' := by
  obtain ⟨hrecord, -, hstack, hlog⟩ := hmoves
  have hgivesUp : Frame.abandoned s.stack = [] ∨
      s.failure graph label = some e ∧ Frame.abandoned s.stack = s.givesUp := by
    rcases hfails with hfails | hnone
    · cases hs : s.stack with
      | nil => exact .inl rfl
      | cons f rest =>
        cases f with
        | body => exact .inl rfl
        | _ => exact .inr ⟨hfails, by simp only [State.givesUp, hs]⟩
    · exact .inl hnone
  have hremoved : ∀ p, (∃ event ∈ s.log, event.notes p) →
      p ∉ (Frame.abandoned s.stack).filterMap Frame.removes := by
    intro p hnoted
    rcases hgivesUp with hnone | ⟨hfails, heq⟩
    · rw [hnone]
      exact List.not_mem_nil
    · rw [heq]
      exact hmet.not_gone hfails hnoted
  have hrefusals : ∀ event ∈ (Frame.abandoned s.stack).map (Frame.refusal e),
      Fits s s' event := by
    rcases hgivesUp with hnone | ⟨hfails, heq⟩
    · rw [hnone]
      exact fun _ hmem => absurd hmem List.not_mem_nil
    · rw [heq]
      exact hmet.refusals_fit h hfails
  rw [List.append_assoc] at hlog
  obtain ⟨honce, hreports⟩ := refusals_pairwise (V := V) e (Frame.abandoned s.stack)
  have hfirst : ∀ a ∈ before, ∃ p deferred, a = .refused p deferred e := by
    rcases hbefore with rfl | ⟨p, d, rfl, -⟩
    · exact fun _ hmem => absurd hmem List.not_mem_nil
    · exact fun a ha => ⟨p, d, List.mem_singleton.mp ha⟩
  refine h.extend ?_ ?_ hlog ?_ ?_ ?_ ?_
  · intro p r₀ hr₀ hnoted
    exact ⟨r₀, by rw [hrecord, if_neg (hremoved p hnoted), hr₀],
      (LinkedModule.Gains.refl r₀).keeps⟩
  · rw [hstack]
    exact fun p m id hmem => .inl (body_mem_dropWhile hmem)
  · rw [hstack]
    exact fun p m id hmem =>
      mem_log_append hlog _ (h.body p m id ((List.dropWhile_suffix _).subset hmem))
  · intro event hevent
    rcases List.mem_append.mp hevent with hevent | hevent
    · rcases hbefore with rfl | ⟨p, d, rfl, hasks, hcached⟩
      · cases hevent
      · obtain rfl := List.mem_singleton.mp hevent
        intro e' hthrew
        obtain ⟨-, r, hr, he⟩ := h.threw p e' hthrew
        cases d with
        | false => exact hcached r e' hr he rfl
        | true =>
          rw [hmet.deferred p hasks r hr] at he
          cases he
    · exact hrefusals event hevent
  · refine List.pairwise_append.mpr ⟨?_, honce, ?_⟩
    · rcases hbefore with rfl | ⟨p, d, rfl, -⟩
      · exact List.Pairwise.nil
      · exact List.pairwise_singleton _ _
    · rintro a ha b hb p rfl
      obtain ⟨_, _, heq⟩ := hfirst _ ha
      cases heq
  · refine List.pairwise_append.mpr ⟨?_, hreports, ?_⟩
    · rcases hbefore with rfl | ⟨p, d, rfl, -⟩
      · exact List.Pairwise.nil
      · exact List.pairwise_singleton _ _
    · rintro a ha b hb p e' (rfl | rfl)
      · obtain ⟨_, _, heq⟩ := hfirst _ ha
        cases heq
      · obtain ⟨_, _, heq⟩ := hfirst _ ha
        cases heq

/-- **Every move that meets the condition** keeps the log and the map together. -/
theorem Kept.move (hinv : Inv graph s) (h : Kept s) (hmet : Met graph s label)
    (hmove : Move graph s label s') : Kept s' := by
  have hfound : ∀ {path deferred}, s.asks graph label = some (path, deferred) →
      ∀ r, s.record path = some r → (deferred = false → r.cachedError = none) →
      r.cachedError = none := by
    intro path deferred hasks r hr heager
    cases deferred with
    | true => exact hmet.deferred path hasks r hr
    | false => exact heager rfl
  cases hmove with
  | idle hrecord _ hstack hlog =>
    refine h.extend_one (keeps_of_record_eq hrecord) (fun _ _ _ => by rw [hstack]) none ?_ ?_
    · rw [hlog, Option.toList_none, List.append_nil]
    · exact fun _ he => by cases he
  | refuse path deferred e hrecord _ hstack hlog hcached =>
    refine h.extend_one (keeps_of_record_eq hrecord) (fun _ _ _ => by rw [hstack]) (some _) hlog ?_
    rintro _ ⟨⟩ e' hthrew
    obtain ⟨-, r, hr, he⟩ := h.threw path e' hthrew
    exact hcached r e' hr he
  | settle path e hlabel _ _ _ _ hsuspended =>
    obtain ⟨thrown, hlabel⟩ := hlabel
    exact absurd hsuspended (hmet.settles path thrown hlabel)
  | answer path deferred namespaceId r' hasks hanswers =>
    obtain ⟨-, hnone, hgains, -, hstack, hlog, hr', hid, heager⟩ := hanswers
    refine h.extend_one ?_ (fun _ _ _ => by rw [hstack, body_mem_resume_iff])
      (some _) hlog ?_
    · intro p r hr _
      obtain ⟨r₁, hr₁, hgain⟩ := hgains p r hr
      exact ⟨r₁, hr₁, hgain.keeps⟩
    · rintro _ ⟨⟩
      refine ⟨?_, r', hr', hid, rfl⟩
      cases hr : s.record path with
      | none =>
        rw [hnone path hr] at hr'
        cases hr'
      | some r =>
        obtain ⟨r₁, hr₁, hgain⟩ := hgains path r hr
        rw [hr'] at hr₁
        obtain rfl := Option.some.inj hr₁
        refine h.not_threw hr (hfound hasks r hr fun hdeferred => ?_)
        rw [← hgain.cachedError]
        exact (heager hdeferred).1
  | pushEager path module namespaceId r hpush =>
    obtain ⟨-, -, -, -, -, hold, hrecord, -, hstack, hlog⟩ := hpush
    refine h.extend_one ?_ (fun _ _ _ => by simp [hstack]) none ?_ ?_
    · intro p r₀ hr₀ _
      by_cases hp : p = path
      · rw [hp] at hr₀ ⊢
        exact ⟨r, by rw [hrecord, if_pos rfl], (hold r₀ hr₀).keeps⟩
      · exact ⟨r₀, by rw [hrecord, if_neg hp, hr₀], (LinkedModule.Gains.refl r₀).keeps⟩
    · rw [hlog, Option.toList_none, List.append_nil]
    · exact fun _ he => by cases he
  | pushDeferred path module r hpush =>
    obtain ⟨-, -, -, hnone, hrecord, -, hstack, hlog⟩ := hpush
    refine h.extend_one ?_ (fun _ _ _ => by simp [hstack]) none ?_ ?_
    · intro p r₀ hr₀ _
      have hp : p ≠ path := by
        rintro rfl
        rw [hnone] at hr₀
        cases hr₀
      exact ⟨r₀, by rw [hrecord, if_neg hp, hr₀], (LinkedModule.Gains.refl r₀).keeps⟩
    · rw [hlog, Option.toList_none, List.append_nil]
    · exact fun _ he => by cases he
  | start path module namespaceId rest htop _ hrecord _ hstack hlog =>
    exact h.start hinv htop hrecord hstack hlog
  | gathers path module rest htop hrecord _ hstack hlog =>
    refine h.extend_one (keeps_of_record_eq hrecord) (fun _ _ _ => by simp [hstack, htop])
      (some _) hlog ?_
    rintro _ ⟨⟩
    trivial
  | works path pending seen targets f' rest htop hworks hrecord _ hstack hlog =>
    refine h.extend_one (keeps_of_record_eq hrecord) (fun _ _ _ => ?_) none ?_ ?_
    · rcases hworks with ⟨_, _, _, rfl⟩ | rfl <;> simp [hstack, htop]
    · rw [hlog, Option.toList_none, List.append_nil]
    · exact fun _ he => by cases he
  | returns path namespaceId r rest hasks htop hr hid hrecord _ hstack hlog =>
    refine h.extend_one (keeps_of_record_eq hrecord) (fun _ _ _ => ?_) (some _) hlog ?_
    · rw [hstack, body_mem_resume_iff]
      simp [htop]
    · rintro _ ⟨⟩
      refine ⟨h.not_threw hr (hfound hasks r hr fun hdeferred => by cases hdeferred), r, ?_, hid, rfl⟩
      rw [hrecord]
      exact hr
  | ends path module namespaceId rest suspends hends => exact h.ends hinv hends
  | throws path module namespaceId rest v hlabel hthrows => exact h.throws hinv hmet hlabel hthrows
  | fails e before hfails hbefore hmoves => exact h.fails hmet hfails hbefore hmoves

/-! ## §4 Runs -/

omit [DecidableEq S] in
theorem kept_empty : Kept (State.empty : State P S V) where
  given := nofun
  started := nofun
  threw := nofun
  completed := nofun
  body := nofun
  unsettled := nofun
  once := List.Pairwise.nil
  reports := List.Pairwise.nil

theorem kept_run {labels : List (Label P V)}
    (hmet : Lib.StepsMeet (step graph) (Met graph) State.empty labels) :
    Kept (reached graph labels) := by
  have hboth := Lib.run_invariant
    (I := fun s : State P S V => Inv graph s ∧ Kept s)
    (fun s label h hlabel => ⟨h.1.step label, h.2.move h.1 hlabel (step_move h.1 label)⟩)
    ⟨inv_empty graph, kept_empty⟩ hmet
  exact hboth.2

/-- **One namespace, one start and one failure**: in every state of a run whose steps meet the
condition, a path was started at most once, all answers for it agree, a failure is what every
later request reports, and what completed is recorded. -/
theorem identity_kept (graph : Graph P S) (labels : List (Label P V))
    (hmet : Lib.StepsMeet (step graph) (Met graph) State.empty labels) (before after : List (Label P V))
    (hsplit : labels = before ++ after) : Fine (reached graph before) := by
  rw [hsplit, Lib.stepsMeet_append] at hmet
  exact (kept_run hmet.1).fine

/-- The second request for a module finds what the first was given. -/
def twice : List (Label Nat Nat) :=
  [.request false 1, .advance, .bodyEnds .completes, .request false 1]

theorem identity_kept_twice : Fine (reached missingSibling twice) := by
  have hmet : Lib.StepsMeet (step missingSibling) (Met missingSibling) State.empty twice := by
    refine ⟨.of_quiet ?_ (fun _ _ => nofun) (by decide), .of_quiet ?_ (fun _ _ => nofun) (by decide),
      .of_quiet (fun _ => nofun) (fun _ _ => nofun) (by decide),
      .of_quiet ?_ (fun _ _ => nofun) (by decide), trivial⟩
    · intro path h
      cases h
    · intro path h
      cases h
    · intro path h
      cases h
  exact identity_kept missingSibling twice hmet twice [] (by simp)

def pendingModule : Graph Nat Nat where
  read _ := .ok (effects [] true)
  resolve _ specifier := specifier

/-- Its body is suspended, then its promise is rejected, then it is requested again. -/
def rejectedAwait : List (Label Nat Nat) :=
  [.request false 0, .advance, .bodyEnds .suspends, .settles 0 (some 7), .request false 0]

/-- The second request is answered all the same. -/
theorem not_identity_kept :
    ¬ ∀ (graph : Graph Nat Nat) (labels before after : List (Label Nat Nat)),
      labels = before ++ after → Fine (reached graph before) := by
  intro hall
  have hfine := hall pendingModule rejectedAwait rejectedAwait [] (by simp)
  have hlog : (reached pendingModule rejectedAwait).log =
      [.linked 0, .started 0, .suspended 0, .given 0 false 0 (some 0),
        .settled 0 (some (.thrown 7)), .given 0 false 0 (some 0)] := by decide
  have hreports := hfine.reports
  rw [hlog] at hreports
  have hlast : Reports (.settled 0 (some (.thrown 7)) : Event Nat Nat Nat)
      (.given 0 false 0 (some 0)) := by
    simp only [List.pairwise_cons] at hreports
    exact hreports.2.2.2.2.1 _ (by simp)
  exact (hlast 0 (.thrown 7) (.inr rfl)).1 false 0 (some 0) rfl

end V12.ModuleLoader
