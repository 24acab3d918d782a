/-
V12.Engine.JobQueueTheorems — when the microtask queue runs everything in the order
of the requests.

§1 follows the tickets through each operation, §2 through a drain, §3 keeps account of
the values that stay rooted, and §4 puts runs together.
-/
import V12.Engine.JobQueue

namespace V12.Jobs

variable {W J V : Type}
variable {s s' : State W J V} {rest : List (Entry (Job J V))} {host : Host W J V}

/-! ## §1 Tickets -/

/-- No ticket is there twice, by number, and the cursor is inside the requests. -/
structure Short (s : State W J V) : Prop where
  length : s.tickets.length ≤ s.requests
  cursor : s.adoptionCursor ≤ s.pendingAdoptions.length

def AllInOrder (s : State W J V) : Prop := s.tickets = List.range s.requests

/-- One more request, its ticket put between these. -/
structure Inserted (s s' : State W J V) (before after : List Nat) : Prop where
  was : s.tickets = before ++ after
  becomes : s'.tickets = before ++ s.requests :: after
  requests : s'.requests = s.requests + 1

theorem Inserted.allInOrder_iff {before after : List Nat} (h : Inserted s s' before after) :
    AllInOrder s' ↔ AllInOrder s ∧ after = [] := by
  unfold AllInOrder
  rw [h.becomes, h.requests, h.was, Lib.insert_eq_range_iff]
  constructor
  · rintro ⟨hbefore, rfl⟩
    exact ⟨by rw [hbefore, List.append_nil], rfl⟩
  · rintro ⟨hall, rfl⟩
    exact ⟨by simpa using hall, rfl⟩

theorem Inserted.length_le {before after : List Nat} (h : Inserted s s' before after)
    (hs : s.tickets.length ≤ s.requests) :
    s'.tickets.length ≤ s'.requests := by
  rw [h.was, List.length_append] at hs
  rw [h.becomes, h.requests, List.length_append, List.length_cons]
  omega

theorem not_allInOrder_of_refused (hs : s.tickets.length ≤ s.requests)
    (htickets : s'.tickets = s.tickets) (hrequests : s'.requests = s.requests + 1) :
    ¬ AllInOrder s' := by
  refine Lib.ne_range_of_length_lt ?_
  rw [htickets, hrequests]
  omega

/-- The request is not refused, and no adoption waits for its job in front of it. -/
def RequestMet (s : State W J V) : Request J V → Prop
  | .enqueue _ => s.pending.length < maxQueueLen ∧ s.unconverted = []
  | .push _ => s.unconverted = []
  | .adopt _ => True

theorem push_inserted (host : Host W J V) (s : State W J V) (j : J) :
    Inserted s (s.request host (.push j))
      (s.ran ++ s.jobs.map (·.ticket) ++ s.pending.map (·.ticket))
      (s.unconverted.map (·.ticket)) where
  was := rfl
  becomes := by simp [State.request, State.make, State.tickets, State.unconverted]
  requests := rfl

theorem request_allInOrder_iff (host : Host W J V) (hs : Short s) (r : Request J V) :
    AllInOrder (s.request host r) ↔ AllInOrder s ∧ RequestMet s r := by
  cases r with
  | enqueue j =>
    by_cases hfull : s.pending.length ≥ maxQueueLen
    · have hrefused : s.request host (.enqueue j) = (s.make host j).1 := by
        simp only [State.request, if_pos hfull]
      rw [hrefused]
      refine iff_of_false (not_allInOrder_of_refused hs.length rfl rfl) ?_
      rintro ⟨-, hroom, -⟩
      exact absurd hroom (Nat.not_lt.mpr hfull)
    · have hpush : s.request host (.enqueue j) = s.request host (.push j) := by
        simp only [State.request, if_neg hfull]
      rw [hpush, (push_inserted host s j).allInOrder_iff, List.map_eq_nil_iff]
      simp only [RequestMet, Nat.lt_of_not_ge hfull, true_and]
  | push j =>
    rw [(push_inserted host s j).allInOrder_iff, List.map_eq_nil_iff]
    rfl
  | adopt a =>
    have hinserted : Inserted s (s.request host (.adopt a)) s.tickets [] := by
      refine ⟨by simp, ?_, rfl⟩
      simp [State.request, State.tickets, State.unconverted,
        List.drop_append_of_le_length hs.cursor]
    rw [hinserted.allInOrder_iff]
    simp [RequestMet]

theorem request_short (host : Host W J V) (hs : Short s) (r : Request J V) :
    Short (s.request host r) := by
  have hpush : ∀ j, Short (s.request host (.push j)) := fun j =>
    ⟨(push_inserted host s j).length_le hs.length, hs.cursor⟩
  cases r with
  | enqueue j =>
    simp only [State.request]
    split
    · exact ⟨Nat.le_succ_of_le hs.length, hs.cursor⟩
    · exact hpush j
  | push j => exact hpush j
  | adopt a =>
    refine ⟨?_, ?_⟩
    · have hlength := hs.length
      simp only [State.tickets, State.unconverted, List.length_append, List.length_map] at hlength
      simp only [State.request, State.tickets, State.unconverted,
        List.drop_append_of_le_length hs.cursor, List.map_append, List.length_append,
        List.length_map, List.map_cons, List.map_nil, List.length_singleton]
      omega
    · simp only [State.request, List.length_append]
      have hcursor := hs.cursor
      omega

theorem requests_allInOrder_iff (host : Host W J V) (rs : List (Request J V)) (hs : Short s) :
    AllInOrder (Lib.run (State.request host) s rs) ↔
      AllInOrder s ∧ Lib.StepsMeet (State.request host) RequestMet s rs := by
  induction rs generalizing s with
  | nil => simp [Lib.StepsMeet]
  | cons r rs ih =>
    rw [Lib.run_cons, ih (request_short host hs r), request_allInOrder_iff host hs r, and_assoc]
    rfl

theorem requests_short (host : Host W J V) (rs : List (Request J V)) (hs : Short s) :
    Short (Lib.run (State.request host) s rs) := by
  induction rs generalizing s with
  | nil => exact hs
  | cons r rs ih => exact ih (request_short host hs r)

/-! ## §2 A drain -/

theorem flush_tickets (s : State W J V) : (flush s).tickets = s.tickets := by
  simp [flush, State.tickets, State.unconverted, Function.comp_def]

theorem flush_short (hs : Short s) : Short (flush s) :=
  ⟨by rw [flush_tickets]; exact hs.length, Nat.le_refl _⟩

theorem pop_tickets {entry : Entry (Job J V)} (hjobs : s.jobs = entry :: rest) (world : W) :
    ({ s with world, jobs := rest, ran := s.ran ++ [entry.ticket] } : State W J V).tickets =
      s.tickets := by
  simp [State.tickets, State.unconverted, hjobs]

def popped (host : Host W J V) (s : State W J V) (entry : Entry (Job J V))
    (rest : List (Entry (Job J V))) : State W J V :=
  { s with world := (host.run s.world entry.item).1, jobs := rest, ran := s.ran ++ [entry.ticket] }

/-- What a drain must meet to keep the order: each job it runs makes no request that is
refused, and none of a job after one of an adoption; the job it stops early after
requests no adoption. -/
def DrainMet (host : Host W J V) : Nat → State W J V → Prop
  | 0, s => s.unconverted = []
  | budget + 1, s =>
    match (flush s).jobs with
    | [] => True
    | entry :: rest =>
      Lib.StepsMeet (State.request host) RequestMet (popped host (flush s) entry rest)
          (host.run (flush s).world entry.item).2 ∧
        if host.deadline (runJob host (flush s) entry rest).world ∨ budget = 0 then
          (runJob host (flush s) entry rest).unconverted = []
        else DrainMet host budget (runJob host (flush s) entry rest)

theorem clear_allInOrder_iff (hs : Short s) :
    AllInOrder (clearPendingAdoptions s) ↔ AllInOrder s ∧ s.unconverted = [] := by
  have hparts : s.tickets =
      (clearPendingAdoptions s).tickets ++ s.unconverted.map (·.ticket) := by
    simp [clearPendingAdoptions, State.tickets, State.unconverted]
  unfold AllInOrder
  refine (Lib.part_eq_range_iff hparts hs.length).trans ?_
  rw [List.map_eq_nil_iff]

theorem runJob_allInOrder_iff (host : Host W J V) (hs : Short s) {entry : Entry (Job J V)}
    (hjobs : s.jobs = entry :: rest) :
    AllInOrder (runJob host s entry rest) ↔ AllInOrder s ∧
      Lib.StepsMeet (State.request host) RequestMet (popped host s entry rest)
        (host.run s.world entry.item).2 := by
  have htickets := pop_tickets hjobs (host.run s.world entry.item).1
  have hshort : Short (popped host s entry rest) :=
    ⟨by rw [popped, htickets]; exact hs.length, hs.cursor⟩
  have hsame : AllInOrder (popped host s entry rest) ↔ AllInOrder s := by
    unfold AllInOrder
    rw [popped, htickets]
  rw [← hsame]
  exact requests_allInOrder_iff host _ hshort

theorem runJob_short (host : Host W J V) (hs : Short s) {entry : Entry (Job J V)}
    (hjobs : s.jobs = entry :: rest) :
    Short (runJob host s entry rest) := by
  refine requests_short host _ ⟨?_, hs.cursor⟩
  rw [pop_tickets hjobs]
  exact hs.length

theorem drainLoop_allInOrder_iff (host : Host W J V) (budget : Nat) (hs : Short s) :
    AllInOrder (clearPendingAdoptions (drainLoop host budget s).1) ↔
      AllInOrder s ∧ DrainMet host budget s := by
  induction budget generalizing s with
  | zero => exact clear_allInOrder_iff hs
  | succ budget ih =>
    have hflush : AllInOrder (flush s) ↔ AllInOrder s := by
      unfold AllInOrder
      rw [flush_tickets]
      rfl
    simp only [drainLoop, DrainMet]
    cases hjobs : (flush s).jobs with
    | nil =>
      rw [clear_allInOrder_iff (flush_short hs), hflush]
      simp [flush, State.unconverted]
    | cons entry rest =>
      have hrun := runJob_allInOrder_iff host (flush_short hs) hjobs
      have hshort := runJob_short host (flush_short hs) hjobs
      simp only
      split
      · rw [clear_allInOrder_iff hshort, hrun, hflush, and_assoc]
      · rw [ih hshort, hrun, hflush, and_assoc]

theorem drainLoop_returned (host : Host W J V) (budget : Nat) (s : State W J V)
    (h : (drainLoop host budget s).2 = false) :
    (drainLoop host budget s).1.jobs = [] ∧ (drainLoop host budget s).1.pending = [] := by
  induction budget generalizing s with
  | zero => simp [drainLoop] at h
  | succ budget ih =>
    simp only [drainLoop] at h ⊢
    cases hjobs : (flush s).jobs with
    | nil => exact ⟨hjobs, rfl⟩
    | cons entry rest =>
      rw [hjobs] at h
      simp only at h ⊢
      split at h
      · simp at h
      · rename_i hgo
        rw [if_neg hgo]
        exact ih _ h

theorem drain_returned (host : Host W J V) (s : State W J V) (h : (drain host s).2 = false) :
    (drain host s).1.tickets = (drain host s).1.ran := by
  obtain ⟨hjobs, hpending⟩ := drainLoop_returned host _ s h
  simp [drain, clearPendingAdoptions, State.tickets, State.unconverted, hjobs, hpending]

theorem enqueue_allInOrder_iff (host : Host W J V) (hs : Short s) (j : J) :
    AllInOrder (step host s (.enqueue j)) ↔ AllInOrder s ∧
      s.jobs.length < maxQueueLen ∧ s.pending = [] ∧ s.unconverted = [] := by
  by_cases hfull : s.jobs.length ≥ maxQueueLen
  · have hrefused : step host s (.enqueue j) = (s.make host j).1 := by
      simp [step, enqueue, State.make, hfull]
    rw [hrefused]
    refine iff_of_false (not_allInOrder_of_refused hs.length rfl rfl) ?_
    rintro ⟨-, hroom, -⟩
    exact absurd hroom (Nat.not_lt.mpr hfull)
  · have hinserted : Inserted s (step host s (.enqueue j)) (s.ran ++ s.jobs.map (·.ticket))
        (s.pending.map (·.ticket) ++ s.unconverted.map (·.ticket)) := by
      refine ⟨by simp [State.tickets], ?_, ?_⟩
      · simp [step, enqueue, State.make, hfull, State.tickets, State.unconverted]
      · simp [step, enqueue, State.make, hfull]
    rw [hinserted.allInOrder_iff]
    simp [Nat.lt_of_not_ge hfull]

theorem enqueue_short (host : Host W J V) (hs : Short s) (j : J) :
    Short (step host s (.enqueue j)) := by
  have hlength := hs.length
  simp only [State.tickets, List.length_append, List.length_map] at hlength
  by_cases hfull : s.jobs.length ≥ maxQueueLen
  · refine ⟨?_, ?_⟩
    · simp only [step, enqueue, State.make, hfull, if_true, State.tickets, State.unconverted,
        List.length_append, List.length_map] at hlength ⊢
      omega
    · simpa [step, enqueue, State.make, hfull] using hs.cursor
  · refine ⟨?_, ?_⟩
    · simp only [step, enqueue, State.make, hfull, if_false, State.tickets, State.unconverted,
        List.length_append, List.length_map, List.length_singleton] at hlength ⊢
      omega
    · simpa [step, enqueue, State.make, hfull] using hs.cursor

theorem foldl_enqueue (entries : List (Entry (Job J V))) (s : State W J V) :
    entries.foldl (fun s entry => (enqueue s entry).1) s =
      { s with jobs := s.jobs ++ entries.take (maxQueueLen - s.jobs.length) } := by
  induction entries generalizing s with
  | nil => simp
  | cons entry entries ih =>
    simp only [List.foldl_cons]
    rw [ih]
    by_cases hfull : s.jobs.length ≥ maxQueueLen
    · simp [enqueue, hfull]
    · have hroom : maxQueueLen - s.jobs.length = (maxQueueLen - (s.jobs.length + 1)) + 1 := by omega
      simp [enqueue, hfull, hroom]

theorem adoptFollowUps_eq (s : State W J V) :
    adoptFollowUps s =
      { s with
        jobs := s.jobs ++ s.pending.take (maxQueueLen - s.jobs.length)
        pending := [] } := by
  rw [adoptFollowUps, foldl_enqueue]

theorem adoptFollowUps_allInOrder_iff (hs : Short s) :
    AllInOrder (adoptFollowUps s) ↔ AllInOrder s ∧
      s.pending.length ≤ maxQueueLen - s.jobs.length := by
  by_cases hfit : s.pending.length ≤ maxQueueLen - s.jobs.length
  · have hsame : (adoptFollowUps s).tickets = s.tickets := by
      rw [adoptFollowUps_eq, List.take_of_length_le hfit]
      simp [State.tickets, State.unconverted]
    have hrequests : (adoptFollowUps s).requests = s.requests := by rw [adoptFollowUps_eq]
    simp only [AllInOrder, hsame, hrequests, hfit, and_true]
  · refine iff_of_false (Lib.ne_range_of_length_lt ?_) fun h => hfit h.2
    have hlength := hs.length
    rw [adoptFollowUps_eq]
    simp only [State.tickets, State.unconverted, List.length_append, List.length_map,
      List.length_take, List.length_nil] at hlength ⊢
    omega

theorem adoptFollowUps_short (hs : Short s) : Short (adoptFollowUps s) := by
  have hlength := hs.length
  rw [adoptFollowUps_eq]
  refine ⟨?_, hs.cursor⟩
  simp only [State.tickets, State.unconverted, List.length_append, List.length_map,
    List.length_take, List.length_nil] at hlength ⊢
  omega

theorem drainLoop_short (host : Host W J V) (budget : Nat) (hs : Short s) :
    Short (drainLoop host budget s).1 := by
  induction budget generalizing s with
  | zero => exact hs
  | succ budget ih =>
    simp only [drainLoop]
    cases hjobs : (flush s).jobs with
    | nil => exact flush_short hs
    | cons entry rest =>
      simp only
      split
      · exact runJob_short host (flush_short hs) hjobs
      · exact ih (runJob_short host (flush_short hs) hjobs)

theorem drain_short (host : Host W J V) (hs : Short s) :
    Short (drain host s).1 := by
  have h := drainLoop_short host (2 * maxQueueLen + 1) hs
  refine ⟨?_, Nat.le_refl _⟩
  have hlength := h.length
  simp only [drain, clearPendingAdoptions, State.tickets, State.unconverted, List.length_append,
    List.length_map, List.drop_nil, List.length_nil] at hlength ⊢
  omega

/-! ## §3 What stays rooted -/

/-- What a queued job captures is pinned, but for the `then` of an adoption. -/
def Pinned (host : Host W J V) (s : State W J V) : Prop :=
  ∀ e ∈ s.jobs ++ s.pending, ∀ v ∈ e.item.values host,
    v ∈ s.pinned ∨ ∃ a, e.item = .thenable a ∧ v = a.thenV

theorem Pinned.of_subset (h : Pinned host s) (hpinned : ∀ v ∈ s.pinned, v ∈ s'.pinned)
    (hjobs : ∀ e ∈ s'.jobs ++ s'.pending, e ∈ s.jobs ++ s.pending ∨
      ∀ v ∈ e.item.values host, v ∈ s'.pinned ∨ ∃ a, e.item = .thenable a ∧ v = a.thenV) :
    Pinned host s' := by
  intro e he v hv
  rcases hjobs e he with hold | hnew
  · exact (h e hold v hv).imp_left (hpinned v)
  · exact hnew v hv

theorem request_pinned (host : Host W J V) (h : Pinned host s) (r : Request J V) :
    Pinned host (s.request host r) := by
  have hpush : ∀ j, Pinned host (s.request host (.push j)) := by
    intro j
    refine h.of_subset (fun v hv => List.mem_append_left _ hv) ?_
    intro e he
    simp only [State.request, State.make, ← List.append_assoc] at he
    rcases List.mem_append.mp he with he | he
    · exact .inl he
    · obtain rfl := List.mem_singleton.mp he
      exact .inr fun v hv => .inl (List.mem_append_right _ hv)
  cases r with
  | enqueue j =>
    simp only [State.request]
    split
    · exact h.of_subset (fun v hv => List.mem_append_left _ hv) fun e he => .inl he
    · exact hpush j
  | push j => exact hpush j
  | adopt a => exact h.of_subset (fun v hv => hv) fun e he => .inl he

theorem requests_pinned (host : Host W J V) (rs : List (Request J V)) (h : Pinned host s) :
    Pinned host (Lib.run (State.request host) s rs) := by
  induction rs generalizing s with
  | nil => exact h
  | cons r rs ih => exact ih (request_pinned host h r)

theorem flush_pinned (h : Pinned host s) :
    Pinned host (flush s) := by
  refine h.of_subset (fun v hv => List.mem_append_left _ hv) ?_
  intro e he
  simp only [flush, List.append_nil] at he
  rcases List.mem_append.mp he with he | he
  · exact .inl he
  · obtain ⟨a, ha, rfl⟩ := List.mem_map.mp he
    refine .inr fun v hv => ?_
    simp only [Job.values, List.mem_cons, List.not_mem_nil, or_false] at hv
    have hpin : ∀ v, v = a.item.promise ∨ v = a.item.thenable → v ∈ (flush s).pinned := by
      intro v hv
      refine List.mem_append_right _ (List.mem_flatMap.mpr ⟨a, ha, ?_⟩)
      simpa using hv
    rcases hv with hv | hv | hv
    · exact .inl (hpin v (.inl hv))
    · exact .inl (hpin v (.inr hv))
    · exact .inr ⟨a.item, rfl, hv⟩

theorem runJob_pinned (host : Host W J V) (h : Pinned host s) {entry : Entry (Job J V)}
    (hjobs : s.jobs = entry :: rest) :
    Pinned host (runJob host s entry rest) := by
  refine requests_pinned host _ (h.of_subset (fun v hv => hv) fun e he => .inl ?_)
  rw [hjobs]
  exact List.mem_cons_of_mem _ he

theorem drainLoop_pinned (host : Host W J V) (budget : Nat) (h : Pinned host s) :
    Pinned host (drainLoop host budget s).1 := by
  induction budget generalizing s with
  | zero => exact h
  | succ budget ih =>
    simp only [drainLoop]
    cases hjobs : (flush s).jobs with
    | nil => exact flush_pinned h
    | cons entry rest =>
      simp only
      split
      · exact runJob_pinned host (flush_pinned h) hjobs
      · exact ih (runJob_pinned host (flush_pinned h) hjobs)

theorem step_pinned (host : Host W J V) (h : Pinned host s) (op : Op J V) :
    Pinned host (step host s op) := by
  cases op with
  | enqueue j =>
    simp only [step, enqueue]
    split
    · exact h.of_subset (fun v hv => List.mem_append_left _ hv) fun e he => .inl he
    · refine h.of_subset (fun v hv => List.mem_append_left _ hv) ?_
      intro e he
      simp only [State.make] at he
      rcases List.mem_append.mp he with he | he
      · rcases List.mem_append.mp he with he | he
        · exact .inl (List.mem_append_left _ he)
        · obtain rfl := List.mem_singleton.mp he
          exact .inr fun v hv => .inl (List.mem_append_right _ hv)
      · exact .inl (List.mem_append_right _ he)
  | request r => exact request_pinned host h r
  | followUps =>
    simp only [step]
    rw [adoptFollowUps_eq]
    refine h.of_subset (fun v hv => hv) fun e he => .inl ?_
    simp only [List.append_nil] at he
    exact (List.append_sublist_append_left _).mpr (List.take_sublist _ _) |>.subset he
  | drain => exact drainLoop_pinned host _ h

theorem step_short (host : Host W J V) (hs : Short s) (op : Op J V) :
    Short (step host s op) := by
  cases op with
  | enqueue j => exact enqueue_short host hs j
  | request r => exact request_short host hs r
  | followUps => exact adoptFollowUps_short hs
  | drain => exact drain_short host hs

/-! ## §4 Runs -/

/-- Each adoption still queued has its `then` kept alive, by a pin or from elsewhere. -/
def ThenHeld (host : Host W J V) (s : State W J V) : Prop :=
  ∀ e ∈ s.jobs ++ s.pending, ∀ a, e.item = .thenable a →
    a.thenV ∈ s.pinned ∨ host.held s.world a.thenV = true

/-- What a step must meet: nothing is refused at a cap, nothing requested before waits to
join the queue behind it, and a drain that stops early leaves no adoption request
without a job and no unrun adoption with a `then` that only the request kept alive. -/
def Met (host : Host W J V) (s : State W J V) : Op J V → Prop
  | .enqueue _ => s.jobs.length < maxQueueLen ∧ s.pending = [] ∧ s.unconverted = []
  | .request r => RequestMet s r
  | .followUps => s.pending.length ≤ maxQueueLen - s.jobs.length
  | .drain => DrainMet host (2 * maxQueueLen + 1) s ∧ ThenHeld host (drain host s).1

theorem unconverted_rooted (host : Host W J V) (s : State W J V) {a : Entry (Adoption V)}
    (ha : a ∈ s.unconverted) : ∀ v ∈ (Job.thenable (J := J) a.item).values host,
      s.Rooted host v := by
  intro v hv
  simp only [Job.values, List.mem_cons, List.not_mem_nil, or_false] at hv
  exact .inr (.inr ⟨a, List.mem_of_mem_drop ha, hv⟩)

def Grows (host : Host W J V) (s s' : State W J V) : Prop :=
  (∀ v, s.Rooted host v → s'.Rooted host v) ∧
    ∀ e ∈ s'.jobs ++ s'.pending, ∀ a, e.item = .thenable a → e ∈ s.jobs ++ s.pending

theorem Grows.keeps_iff {op : Op J V} (hgrows : Grows host s (step host s op)) (h : InOrder host s)
    (hpinned : Pinned host (step host s op)) (hdrain : op ≠ .drain)
    (htickets : AllInOrder (step host s op) ↔ AllInOrder s ∧ Met host s op) :
    Keeps host s op ↔ Met host s op := by
  constructor
  · intro hkeeps
    exact (htickets.mp hkeeps.inOrder.tickets).2
  · intro hmet
    refine ⟨⟨htickets.mpr ⟨h.tickets, hmet⟩, ?_, fun a ha => unconverted_rooted host _ ha⟩,
      fun heq => absurd heq hdrain⟩
    intro e he v hv
    rcases hpinned e he v hv with hpin | ⟨a, ha, -⟩
    · exact .inl hpin
    · exact hgrows.1 v (h.jobs e (hgrows.2 e he a ha) v hv)

theorem request_grows (host : Host W J V) (s : State W J V) (r : Request J V) :
    Grows host s (s.request host r) := by
  have hpush : ∀ j, Grows host s (s.request host (.push j)) := by
    intro j
    refine ⟨fun v hv => hv.imp_left fun hpin => List.mem_append_left _ hpin, ?_⟩
    intro e he a ha
    simp only [State.request, State.make, ← List.append_assoc] at he
    rcases List.mem_append.mp he with he | he
    · exact he
    · obtain rfl := List.mem_singleton.mp he
      cases ha
  cases r with
  | enqueue j =>
    simp only [State.request]
    split
    · exact ⟨fun v hv => hv.imp_left fun hpin => List.mem_append_left _ hpin,
        fun e he _ _ => he⟩
    · exact hpush j
  | push j => exact hpush j
  | adopt a =>
    refine ⟨fun v hv => hv.imp_right fun hv => hv.imp_right ?_, fun e he _ _ => he⟩
    rintro ⟨b, hb, hvalue⟩
    exact ⟨b, List.mem_append_left _ hb, hvalue⟩

theorem enqueue_grows (host : Host W J V) (s : State W J V) (j : J) :
    Grows host s (step host s (.enqueue j)) := by
  simp only [step, enqueue]
  split
  · exact ⟨fun v hv => hv.imp_left fun hpin => List.mem_append_left _ hpin, fun e he _ _ => he⟩
  · refine ⟨fun v hv => hv.imp_left fun hpin => List.mem_append_left _ hpin, ?_⟩
    intro e he a ha
    simp only [State.make] at he
    rcases List.mem_append.mp he with he | he
    · rcases List.mem_append.mp he with he | he
      · exact List.mem_append_left _ he
      · obtain rfl := List.mem_singleton.mp he
        cases ha
    · exact List.mem_append_right _ he

theorem adoptFollowUps_grows (host : Host W J V) (s : State W J V) :
    Grows host s (adoptFollowUps s) := by
  rw [adoptFollowUps_eq]
  refine ⟨fun v hv => hv, fun e he _ _ => ?_⟩
  simp only [List.append_nil] at he
  exact (List.append_sublist_append_left _).mpr (List.take_sublist _ _) |>.subset he

theorem drain_inOrder_iff (host : Host W J V) (hs : Short s) (hpinned : Pinned host s)
    (hall : AllInOrder s) :
    InOrder host (drain host s).1 ↔
      DrainMet host (2 * maxQueueLen + 1) s ∧ ThenHeld host (drain host s).1 := by
  have htickets := drainLoop_allInOrder_iff host (2 * maxQueueLen + 1) hs
  have hafter : Pinned host (drain host s).1 := step_pinned host hpinned .drain
  have hnone : (drain host s).1.pendingAdoptions = [] := rfl
  constructor
  · intro h
    refine ⟨(htickets.mp h.tickets).2, fun e he a ha => ?_⟩
    have hthen := h.jobs e he a.thenV (by rw [ha]; simp [Job.values])
    rcases hthen with hpin | hheld | ⟨b, hb, -⟩
    · exact .inl hpin
    · exact .inr hheld
    · rw [hnone] at hb
      simp at hb
  · rintro ⟨hmet, hheld⟩
    refine ⟨htickets.mpr ⟨hall, hmet⟩, ?_, fun a ha => unconverted_rooted host _ ha⟩
    intro e he v hv
    rcases hafter e he v hv with hpin | ⟨a, ha, rfl⟩
    · exact .inl hpin
    · exact (hheld e he a ha).imp_right .inl

/-- **One step** does what it should exactly when it meets its condition. -/
theorem keeps_iff (host : Host W J V) (hs : Short s) (hpinned : Pinned host s) (h : InOrder host s)
    (op : Op J V) : Keeps host s op ↔ Met host s op := by
  have hafter := step_pinned host hpinned op
  cases op with
  | enqueue j =>
    exact (enqueue_grows host s j).keeps_iff h hafter nofun (enqueue_allInOrder_iff host hs j)
  | request r =>
    exact (request_grows host s r).keeps_iff h hafter nofun (request_allInOrder_iff host hs r)
  | followUps =>
    exact (adoptFollowUps_grows host s).keeps_iff h hafter nofun (adoptFollowUps_allInOrder_iff hs)
  | drain =>
    have hdrain := drain_inOrder_iff host hs hpinned h.tickets
    exact ⟨fun hkeeps => hdrain.mp hkeeps.inOrder,
      fun hmet => ⟨hdrain.mpr hmet, fun _ => drain_returned host s⟩⟩

theorem run_keeps_iff (host : Host W J V) (ops : List (Op J V)) (hs : Short s)
    (hpinned : Pinned host s) (h : InOrder host s) :
    Lib.StepsMeet (step host) (Keeps host) s ops ↔ Lib.StepsMeet (step host) (Met host) s ops := by
  induction ops generalizing s with
  | nil => exact Iff.rfl
  | cons op ops ih =>
    simp only [Lib.StepsMeet]
    rw [keeps_iff host hs hpinned h op]
    refine and_congr_right fun hmet => ?_
    have hkeeps := (keeps_iff host hs hpinned h op).mpr hmet
    exact ih (step_short host hs op) (step_pinned host hpinned op) hkeeps.inOrder

/-- **When the queue is one first-in-first-out queue**: in a run, after every step what was
run and what is queued are the requests in order, each once, the queued ones rooted, and
drains that return leave nothing, exactly when no step is refused at a cap, no job is
requested after an adoption by the same job, and a drain that stops early leaves
neither an adoption request without a job nor an unrun adoption whose `then` nothing
else holds. -/
theorem queue_inOrder_iff (host : Host W J V) (world : W) (ops : List (Op J V)) :
    Lib.StepsMeet (step host) (Keeps host) (State.empty world) ops ↔
      Lib.StepsMeet (step host) (Met host) (State.empty world) ops := by
  refine run_keeps_iff host ops ⟨by simp [State.empty, State.tickets, State.unconverted],
    Nat.le_refl _⟩ ?_ ⟨rfl, ?_, ?_⟩
  all_goals intro e he; simp [State.empty, State.unconverted] at he

def awaiting : Host Unit Nat Nat where
  run _ job :=
    match job with
    | .made 0 => ((), [.adopt ⟨1, 2, 3, false⟩, .push 1])
    | _ => ((), [])
  deadline _ := false
  captures _ := []
  held _ _ := true

/-- The job that was requested after the adoption runs before it. -/
theorem not_queue_inOrder :
    ¬ ∀ (host : Host Unit Nat Nat) (ops : List (Op Nat Nat)),
      Lib.StepsMeet (step host) (Keeps host) (State.empty ()) ops := by
  intro h
  have hkeeps := h awaiting [.enqueue 0, .drain]
  have htickets := hkeeps.2.1.inOrder.tickets
  revert htickets
  decide

end V12.Jobs
