/-
V12.Engine.PromiseReactionsTheorems — when each reaction of a promise runs once, in the
order of the registrations, with the settlement of its promise.

§1 says what each operation does to the slots, the registrations, the runs and the queued
runs of a promise. §2 takes the labels one by one, and §3 the runs.
-/
import V12.Engine.PromiseReactions

namespace V12.Reactions

open Jobs (maxQueueLen)

variable {V : Type} [DecidableEq V]

/-! ## §1 What the statement looks at -/

theorem once_queue_iff (s : State V) (p : V) (queue : Jobs.State Unit (Made V) V)
    (h : ({ s with queue } : State V).queuedOf p = s.queuedOf p) :
    Once { s with queue } p ↔ Once s p := by
  unfold Once
  rw [h]
  rfl

omit [DecidableEq V] in
@[simp] theorem register_promises (s : State V) (q : V) :
    (s.register q).promises = s.promises := rfl

@[simp] theorem register_runsOf (s : State V) (q p : V) :
    (s.register q).runsOf p = s.runsOf p := rfl

@[simp] theorem register_queuedOf (s : State V) (q p : V) :
    (s.register q).queuedOf p = s.queuedOf p := rfl

@[simp] theorem register_registeredOn (s : State V) (q p : V) :
    (s.register q).registeredOn p =
      s.registeredOn p ++ if q = p then [s.registered.length] else [] := by
  simp only [State.register, State.registeredOn, List.filterMap_append, List.filterMap_cons,
    List.filterMap_nil]
  split <;> simp_all

@[simp] theorem setPromise_promises (s : State V) (q p : V) (slots : PromiseSlots V) :
    (s.setPromise q slots).promises p = if p = q then slots else s.promises p := rfl

@[simp] theorem setPromise_registeredOn (s : State V) (q p : V) (slots : PromiseSlots V) :
    (s.setPromise q slots).registeredOn p = s.registeredOn p := rfl

@[simp] theorem setPromise_runsOf (s : State V) (q p : V) (slots : PromiseSlots V) :
    (s.setPromise q slots).runsOf p = s.runsOf p := rfl

@[simp] theorem setPromise_queuedOf (s : State V) (q p : V) (slots : PromiseSlots V) :
    (s.setPromise q slots).queuedOf p = s.queuedOf p := rfl

omit [DecidableEq V] in
@[simp] theorem push_promises (s : State V) (job : Made V) : (s.push job).promises = s.promises :=
  rfl

@[simp] theorem push_registeredOn (s : State V) (job : Made V) (p : V) :
    (s.push job).registeredOn p = s.registeredOn p := rfl

@[simp] theorem push_runsOf (s : State V) (job : Made V) (p : V) :
    (s.push job).runsOf p = s.runsOf p := rfl

@[simp] theorem push_queuedOf (s : State V) (job : Made V) (p : V) :
    (s.push job).queuedOf p = s.queuedOf p ++ (runOf p (.made job)).toList := by
  simp only [State.push, State.queuedOf, Jobs.State.request, Jobs.State.make,
    List.filterMap_append, List.append_assoc]
  congr 2

theorem foldl_push (jobs : List (Made V)) (s : State V) (p : V) :
    (jobs.foldl State.push s).promises = s.promises ∧
      (jobs.foldl State.push s).registeredOn p = s.registeredOn p ∧
      (jobs.foldl State.push s).runsOf p = s.runsOf p ∧
      (jobs.foldl State.push s).queuedOf p =
        s.queuedOf p ++ jobs.filterMap fun job => runOf p (.made job) := by
  induction jobs generalizing s with
  | nil => simp
  | cons job jobs ih =>
    obtain ⟨hpromises, hregistered, hruns, hqueued⟩ := ih (s.push job)
    refine ⟨hpromises, hregistered, hruns, ?_⟩
    rw [List.foldl_cons, hqueued, push_queuedOf, List.append_assoc]
    congr 1
    cases h : runOf p (.made job) <;> simp [h]

theorem foldl_enqueue (jobs : List (Made V)) (s : State V) (p : V) :
    let s' := jobs.foldl
      (fun s job => { s with queue := s.queue.request queueHost (.enqueue job) }) s
    s'.promises = s.promises ∧ s'.registeredOn p = s.registeredOn p ∧
      s'.runsOf p = s.runsOf p ∧
      s'.queuedOf p = s.queuedOf p ++
        (jobs.take (maxQueueLen - s.queue.pending.length)).filterMap fun job =>
          runOf p (.made job) := by
  induction jobs generalizing s with
  | nil => simp
  | cons job jobs ih =>
    obtain ⟨hpromises, hregistered, hruns, hqueued⟩ :=
      ih { s with queue := s.queue.request queueHost (.enqueue job) }
    refine ⟨hpromises, hregistered, hruns, ?_⟩
    rw [List.foldl_cons, hqueued]
    by_cases hfull : s.queue.pending.length ≥ maxQueueLen
    · have hnone : maxQueueLen - s.queue.pending.length = 0 := Nat.sub_eq_zero_of_le hfull
      simp [Jobs.State.request, Jobs.State.make, hfull, hnone, State.queuedOf]
    · have hpush : s.queue.request queueHost (.enqueue job) =
          s.queue.request queueHost (.push job) := by
        simp [Jobs.State.request, hfull]
      have hroom : maxQueueLen - s.queue.pending.length =
          (maxQueueLen - (s.queue.pending.length + 1)) + 1 := by omega
      have hone := push_queuedOf s job p
      simp only [State.push] at hone
      rw [hpush, hone, hroom, List.take_succ_cons, List.append_assoc]
      have hlength : (s.queue.request queueHost (.push job)).pending.length =
          s.queue.pending.length + 1 := by
        simp [Jobs.State.request, Jobs.State.make]
      rw [hlength]
      congr 1
      cases h : runOf p (.made job) <;> simp [h]

theorem jobs_runs (records : List (Record V)) (p q : V) (outcome : Settlement V) :
    (records.map fun r => Made.reaction (r.job p outcome)).filterMap
        (fun job => runOf q (.made job)) =
      if p = q then records.map fun r => (r.id, outcome.value, outcome.rejecting) else [] := by
  rw [List.filterMap_map]
  split
  · rename_i hpq
    rw [← List.filterMap_eq_map]
    refine List.filterMap_congr fun r _ => ?_
    simp [runOf, Record.job, hpq]
  · rename_i hpq
    rw [List.filterMap_eq_nil_iff]
    intro r _
    simp [runOf, Record.job, hpq]

/-! ## §2 One label -/

theorem once_installThen (s : State V) (q fulfill reject derived : V) (capability : V × V) (p : V)
    (h : Once s p) : Once (installThenRecord s q fulfill reject derived capability) p := by
  unfold installThenRecord
  unfold Once OnceOf at h
  cases hstate : (s.promises q).state with
  | none =>
    unfold Once OnceOf
    by_cases hp : p = q
    · subst hp
      simp only [hstate] at h
      simp [h]
    · simpa [hp, Ne.symm hp] using h
  | some outcome =>
    unfold Once OnceOf
    by_cases hp : p = q
    · subst hp
      simp only [hstate] at h
      simp [hstate, h.1, ← List.append_assoc, h.2, runOf, Record.job]
    · simpa [hp, Ne.symm hp, runOf, Record.job] using h

theorem once_pushRecord (s : State V) (q fulfill reject derived p : V) (h : Once s p) :
    Once (pushRecord s q fulfill reject derived) p := by
  unfold pushRecord
  cases hstate : (s.promises q).state with
  | none =>
    unfold Once OnceOf at h ⊢
    by_cases hp : p = q
    · subst hp
      simp only [hstate] at h
      simp [h]
    · simpa [hp, Ne.symm hp] using h
  | some outcome => exact h

theorem once_watchFinally (s : State V) (q onFinally resolve reject fulfill rejection dummy p : V)
    (h : Once s p) :
    Once (promiseWatchFinally s q onFinally resolve reject fulfill rejection dummy) p := by
  unfold promiseWatchFinally
  cases hstate : (s.promises q).state with
  | none => exact once_pushRecord s q fulfill rejection dummy p h
  | some outcome =>
    unfold Once OnceOf at h ⊢
    by_cases hp : p = q
    · subst hp
      simp only [hstate] at h
      simp [hstate, h.1, ← List.append_assoc, h.2, runOf]
    · simpa [hp, Ne.symm hp, runOf] using h

theorem once_settleSync (s : State V) (q : V) (outcome : Settlement V) (p : V) (h : Once s p) :
    Once (settleSync s q outcome) p := by
  unfold settleSync
  cases hstate : (s.promises q).state with
  | some old => exact h
  | none =>
    obtain ⟨hpromises, hregistered, hruns, hqueued⟩ :=
      foldl_push (drainReactionJobs s q outcome) (s.setPromise q ⟨some outcome, []⟩) p
    unfold Once OnceOf at h ⊢
    rw [hpromises, hregistered, hruns, hqueued, drainReactionJobs, jobs_runs]
    by_cases hp : p = q
    · subst hp
      simp only [hstate] at h
      simp [h.2.1, h.2.2, ← h.1]
    · simpa [hp, Ne.symm hp] using h

/-- When a job settles a promise: pending, with room in the sink for a job of each record, or
settled already the same way, or with no reaction. -/
def SettleMet (s : State V) (p : V) (outcome : Settlement V) : Prop :=
  match (s.promises p).state with
  | none => (s.promises p).reactions.length ≤ maxQueueLen - s.queue.pending.length
  | some old => old = outcome ∨ s.registeredOn p = []

theorem take_map_eq_iff {α β : Type} (l : List α) (f : α → β) (n : Nat) :
    (l.take n).map f = l.map f ↔ l.length ≤ n := by
  constructor
  · intro h
    have hlength := congrArg List.length h
    simp only [List.length_map, List.length_take] at hlength
    omega
  · intro h
    rw [List.take_of_length_le h]

theorem once_settle_other (s : State V) (q : V) (outcome : Settlement V) (p : V) (hp : p ≠ q)
    (h : Once s p) : Once (settle s q outcome) p := by
  obtain ⟨hpromises, hregistered, hruns, hqueued⟩ :=
    foldl_enqueue (drainReactionJobs s q outcome) (s.setPromise q ⟨some outcome, []⟩) p
  unfold settle
  unfold Once OnceOf at h ⊢
  rw [hpromises, hregistered, hruns, hqueued, drainReactionJobs, ← List.map_take, jobs_runs]
  simpa [hp, Ne.symm hp] using h

theorem once_settle_iff (s : State V) (p : V) (outcome : Settlement V) (h : Once s p) :
    Once (settle s p outcome) p ↔ SettleMet s p outcome := by
  obtain ⟨hpromises, hregistered, hruns, hqueued⟩ :=
    foldl_enqueue (drainReactionJobs s p outcome) (s.setPromise p ⟨some outcome, []⟩) p
  unfold settle SettleMet
  unfold Once OnceOf at h ⊢
  rw [hpromises, hregistered, hruns, hqueued, drainReactionJobs, ← List.map_take, jobs_runs]
  cases hstate : (s.promises p).state with
  | none =>
    simp only [hstate] at h
    obtain ⟨hids, hruns, hqueued⟩ := h
    have hregs : (s.registeredOn p).map (fun id => (id, outcome.value, outcome.rejecting)) =
        (s.promises p).reactions.map fun r => (r.id, outcome.value, outcome.rejecting) := by
      rw [← hids, List.map_map]
      rfl
    simp only [setPromise_promises, if_true, true_and, setPromise_runsOf, setPromise_queuedOf,
      setPromise_registeredOn, hruns, hqueued, List.nil_append, hregs]
    exact take_map_eq_iff _ _ _
  | some old =>
    simp only [hstate] at h
    obtain ⟨hnone, hall⟩ := h
    simp only [setPromise_promises, if_true, true_and, setPromise_runsOf, setPromise_queuedOf,
      setPromise_registeredOn, hnone, List.take_nil, List.map_nil, List.append_nil, hall]
    constructor
    · intro hsame
      rcases hregs : s.registeredOn p with _ | ⟨id, rest⟩
      · exact .inr rfl
      · rw [hregs] at hsame
        simp only [List.map_cons, List.cons.injEq, Prod.mk.injEq, true_and] at hsame
        refine .inl ?_
        cases old
        cases outcome
        simp_all
    · rintro (rfl | hregs)
      · rfl
      · rw [hregs]
        rfl

theorem once_followUps_iff (s : State V) (h : ∀ p, Once s p) :
    (∀ p, Once { s with queue := Jobs.adoptFollowUps s.queue } p) ↔
      ∀ e ∈ s.queue.pending.drop (maxQueueLen - s.queue.jobs.length), ∀ p,
        runOf p e.item = none := by
  rw [Jobs.adoptFollowUps_eq]
  -- What the queue held of a promise is what it still holds, and what did not fit.
  have hparts : ∀ p, s.queuedOf p =
      ((s.queue.jobs ++ s.queue.pending.take (maxQueueLen - s.queue.jobs.length)).filterMap
        fun e => runOf p e.item) ++
      (s.queue.pending.drop (maxQueueLen - s.queue.jobs.length)).filterMap
        fun e => runOf p e.item := by
    intro p
    rw [← List.filterMap_append, List.append_assoc, List.take_append_drop]
    rfl
  constructor
  · intro hafter e he p
    have hold := h p
    have hnew := hafter p
    have hdropped : (s.queue.pending.drop (maxQueueLen - s.queue.jobs.length)).filterMap
        (fun e => runOf p e.item) = [] := by
      unfold Once OnceOf at hold hnew
      rw [hparts p] at hold
      simp only [State.queuedOf, List.append_nil] at hnew
      cases hstate : (s.promises p).state with
      | none =>
        simp only [hstate] at hold
        exact (List.append_eq_nil_iff.mp hold.2.2).2
      | some outcome =>
        simp only [hstate] at hold hnew
        have hboth := hold.2.trans hnew.2.symm
        rw [← List.append_assoc] at hboth
        exact List.append_right_eq_self.mp hboth
    exact List.filterMap_eq_nil_iff.mp hdropped e he
  · intro hnone p
    have hdropped : (s.queue.pending.drop (maxQueueLen - s.queue.jobs.length)).filterMap
        (fun e => runOf p e.item) = [] :=
      List.filterMap_eq_nil_iff.mpr fun e he => hnone e he p
    rw [once_queue_iff]
    · exact h p
    · rw [hparts p, hdropped, List.append_nil]
      simp [State.queuedOf]

omit [DecidableEq V] in
theorem onceOf_move {slots : PromiseSlots V} {registered : List Nat}
    {runs queued runs' queued' : List (Run V)} (run : Option (Run V))
    (h : OnceOf slots registered runs queued) (hqueued : queued = run.toList ++ queued')
    (hruns : runs' = runs ++ run.toList) : OnceOf slots registered runs' queued' := by
  unfold OnceOf at h ⊢
  cases hstate : slots.state with
  | none =>
    simp only [hstate] at h
    obtain ⟨hids, hnone, hnoqueue⟩ := h
    rw [hqueued] at hnoqueue
    obtain ⟨hrun, hqueue⟩ := List.append_eq_nil_iff.mp hnoqueue
    exact ⟨hids, by rw [hruns, hnone, hrun]; rfl, hqueue⟩
  | some outcome =>
    simp only [hstate] at h
    refine ⟨h.1, ?_⟩
    rw [hruns, List.append_assoc, ← hqueued, h.2]

theorem flush_runs (s : State V) (p : V) :
    ((Jobs.flush s.queue).jobs.filterMap fun e => runOf p e.item) = s.queuedOf p := by
  have hnone : (s.queue.unconverted.map fun a =>
      (⟨a.ticket, .thenable a.item⟩ : Jobs.Entry (Jobs.Job (Made V) V))).filterMap
        (fun e => runOf p e.item) = [] := by
    rw [List.filterMap_eq_nil_iff]
    intro e he
    obtain ⟨a, -, rfl⟩ := List.mem_map.mp he
    rfl
  simp only [Jobs.flush, State.queuedOf, List.filterMap_append, hnone, List.append_nil]

theorem once_pop (s : State V) (p : V) (h : Once s p) : Once (pop s) p := by
  unfold pop
  split
  · rename_i entry rest hrunning hjobs
    have hqueued : s.queuedOf p = (runOf p entry.item).toList ++
        rest.filterMap fun e => runOf p e.item := by
      rw [← flush_runs, hjobs, List.filterMap_cons]
      cases runOf p entry.item <;> rfl
    dsimp only
    split
    · rename_i job hitem
      rw [hitem] at hqueued
      refine onceOf_move (runOf p (.made (.reaction job))) h ?_ ?_
      · rw [hqueued]
        simp [State.queuedOf, Jobs.flush]
      · by_cases hp : job.promise = p <;> simp [State.runsOf, runOf, hp]
    · rename_i q id onFinally resolve reject outcome hitem
      rw [hitem] at hqueued
      refine onceOf_move (runOf p (.made (.finallySettle q id onFinally resolve reject outcome))) h
        ?_ ?_
      · rw [hqueued]
        simp [State.queuedOf, Jobs.flush]
      · by_cases hp : q = p <;> simp [State.runsOf, runOf, hp]
    · rename_i hreaction hfinally
      have hother : runOf p entry.item = none := by
        unfold runOf
        split
        · rename_i job hitem
          exact absurd hitem (hreaction job)
        · rename_i q id onFinally resolve reject outcome hitem
          exact absurd hitem (hfinally q id onFinally resolve reject outcome)
        · rfl
      refine onceOf_move none h ?_ (by simp [State.runsOf])
      rw [hqueued, hother]
      simp [State.queuedOf, Jobs.flush]
  · exact h

theorem once_finish_iff (s : State V) (result : V) (threw : Bool) (h : ∀ p, Once s p) :
    (∀ p, Once (finish s result threw) p) ↔ ∀ job, s.running = some job → job.own = false := by
  unfold finish
  cases hrunning : s.running with
  | none => exact iff_of_true h nofun
  | some job =>
    simp only [Option.some.injEq, forall_eq']
    constructor
    · intro hafter
      cases hown : job.own with
      | false => rfl
      | true =>
        -- The reaction has one run more than registrations.
        exfalso
        have hold := h job.promise
        have hnew := hafter job.promise
        unfold Once OnceOf at hold hnew
        simp only [State.runsOf, State.queuedOf, State.registeredOn, List.filterMap_append,
          hown, List.filterMap_cons, List.filterMap_nil, and_self, if_true] at hold hnew
        cases hstate : (s.promises job.promise).state with
        | none =>
          simp only [hstate] at hnew
          simp at hnew
        | some outcome =>
          simp only [hstate] at hold hnew
          have hlength := congrArg List.length (hold.2.trans hnew.2.symm)
          simp only [List.length_append, List.length_singleton] at hlength
          omega
    · intro hown p
      refine onceOf_move none (h p) rfl ?_
      simp [State.runsOf, hown]

theorem once_request (s : State V) (p : V) (r : Jobs.Request (Made V) V)
    (hr : ∀ job, r = .enqueue job ∨ r = .push job → runOf p (.made job) = none) (h : Once s p) :
    Once { s with queue := s.queue.request queueHost r } p := by
  refine (once_queue_iff s p _ ?_).mpr h
  have hpush : ∀ job, runOf p (.made job) = none →
      (s.push job).queuedOf p = s.queuedOf p := by
    intro job hjob
    rw [push_queuedOf, hjob]
    exact List.append_nil _
  cases r with
  | enqueue job =>
    by_cases hfull : s.queue.pending.length ≥ maxQueueLen
    · simp [Jobs.State.request, Jobs.State.make, hfull, State.queuedOf]
    · have hsame : s.queue.request queueHost (.enqueue job) =
          s.queue.request queueHost (.push job) := by
        simp [Jobs.State.request, hfull]
      rw [hsame]
      exact hpush job (hr job (.inl rfl))
  | push job => exact hpush job (hr job (.inr rfl))
  | adopt a => rfl

/-! ## §3 Runs -/

/-- What a label must meet: a promise that a job settles is pending with room in the sink for
all its reactions; no reaction is among the follow-ups that do not fit the queue; and the
reaction job that ends has a capability of its own. -/
def Met (s : State V) : Label V → Prop
  | .settle p outcome => SettleMet s p outcome
  | .followUps => ∀ e ∈ s.queue.pending.drop (maxQueueLen - s.queue.jobs.length), ∀ p,
    runOf p e.item = none
  | .finish _ _ => ∀ job, s.running = some job → job.own = false
  | _ => True

/-- **One label** keeps every promise's reactions exactly when it meets the condition. -/
theorem step_once_iff (s : State V) (l : Label V) (h : ∀ p, Once s p) :
    (∀ p, Once (step s l) p) ↔ Met s l := by
  cases l with
  | installThen q fulfill reject derived capability =>
    exact iff_of_true
      (fun p => once_installThen s q fulfill reject derived capability p (h p)) trivial
  | watchFinally q onFinally resolve reject fulfill rejection dummy =>
    exact iff_of_true (fun p =>
      once_watchFinally s q onFinally resolve reject fulfill rejection dummy p (h p)) trivial
  | pushRecord q fulfill reject derived =>
    exact iff_of_true (fun p => once_pushRecord s q fulfill reject derived p (h p)) trivial
  | settleSync q outcome =>
    exact iff_of_true (fun p => once_settleSync s q outcome p (h p)) trivial
  | settle q outcome =>
    constructor
    · intro hafter
      exact (once_settle_iff s q outcome (h q)).mp (hafter q)
    · intro hmet p
      by_cases hp : p = q
      · subst hp
        exact (once_settle_iff s p outcome (h p)).mpr hmet
      · exact once_settle_other s q outcome p hp (h p)
  | push k =>
    refine iff_of_true (fun p => once_request s p (.push (.other k)) ?_ (h p)) trivial
    rintro job (hjob | hjob) <;> cases hjob
    rfl
  | enqueue k =>
    refine iff_of_true (fun p => once_request s p (.enqueue (.other k)) ?_ (h p)) trivial
    rintro job (hjob | hjob) <;> cases hjob
    rfl
  | adopt a =>
    refine iff_of_true (fun p => once_request s p (.adopt a) ?_ (h p)) trivial
    rintro job (hjob | hjob) <;> cases hjob
  | followUps => exact once_followUps_iff s h
  | pop => exact iff_of_true (fun p => once_pop s p (h p)) trivial
  | finish result threw => exact once_finish_iff s result threw h
  | drainEnds => exact iff_of_true (fun p => (once_queue_iff s p _ rfl).mpr (h p)) trivial

theorem once_empty (p : V) : Once (State.empty : State V) p := by
  simp [Once, OnceOf, State.empty, State.registeredOn, State.runsOf, State.queuedOf,
    Jobs.State.empty]

/-- **When each reaction runs once**: in a run, after every label the reactions of each promise
wait, ran or are queued once, in the order of their registration and with its settlement,
exactly when no job settles a promise with more reactions than the sink has room for (or
settles a settled one differently), no reaction is among follow-ups that do not fit the
queue, and no reaction job of a record with three slots ends. -/
theorem reactions_once_iff (labels : List (Label V)) :
    Lib.StepsMeet step (fun s l => ∀ p, Once (step s l) p) (State.empty : State V) labels ↔
      Lib.StepsMeet step Met State.empty labels := by
  have hrun : ∀ s : State V, (∀ p, Once s p) →
      (Lib.StepsMeet step (fun s l => ∀ p, Once (step s l) p) s labels ↔
        Lib.StepsMeet step Met s labels) := by
    induction labels with
    | nil => intro s _; exact Iff.rfl
    | cons l labels ih =>
      intro s h
      simp only [Lib.StepsMeet]
      rw [step_once_iff s l h]
      exact and_congr_right fun hmet => ih (step s l) ((step_once_iff s l h).mpr hmet)
  exact hrun State.empty once_empty

/-- `p.finally(cb)` on a pending promise calls its watcher twice: the job of its record has the
watchers for a capability, and calls the first one again with what it returned. -/
theorem not_reactions_once :
    ¬ ∀ labels : List (Label Nat),
      Lib.StepsMeet step (fun s l => ∀ p, Once (step s l) p) (State.empty : State Nat) labels := by
  intro h
  have hrun := h [.watchFinally 1 2 3 4 5 6 7, .settleSync 1 ⟨false, 8⟩, .pop, .finish 0 false]
  have honce := hrun.2.2.2.1 1
  revert honce
  decide

end V12.Reactions
