/-
V12.Interp.AsyncGeneratorTheorems — when the requests of an async generator are served in
order, each by its own resumption.

§1 is about the drain loops in `control`, §2 the invariant of runs. §3 has a spec lemma
for each way to resume and to settle, with the exact condition for what should hold
after it, and §4 takes the labels one by one.
-/
import V12.Interp.AsyncGenerator

namespace V12.AsyncGen

variable {V : Type}
variable {s : State V} {undefined : V} {r : Request V} {rest : List (Request V)}
  {below : List Control}

/-! ## §1 Control -/

def AllDrains (control : List Control) : Prop := ∀ c ∈ control, c ≠ .body

theorem running_eq_false (h : AllDrains s.control) : s.running = false := by
  simp only [State.running, List.contains_eq_mem, decide_eq_false_iff_not]
  exact fun hmem => h _ hmem rfl

theorem running_body {rest : List Control} (h : s.control = .body :: rest) :
    s.running = true := by
  simp [State.running, h]

/-! ## §2 The invariant -/

structure Inv (undefined : V) (s : State V) : Prop where
  fine : Fine undefined s
  /-- A body runs only on top of the drain loops. -/
  top : AllDrains s.control.tail
  executing : s.executing = (s.running || s.awaiting)
  exclusive : s.running → s.awaiting = false
  /-- While the body is busy its request is at the head. -/
  active : s.running ∨ s.awaiting → s.done = false ∧ s.started = true ∧
    ∃ r rest, s.queue = r :: rest ∧ s.inFlight = some r.id
  notYielded : s.awaiting → s.yielded = false
  /-- A request that waits for a drain loop waits behind a yield. -/
  behindYield : s.running = false → s.awaiting = false → s.queue ≠ [] → s.yielded = true

theorem Inv.cases_control (h : Inv undefined s) :
    (∃ rest, s.control = .body :: rest ∧ AllDrains rest) ∨ AllDrains s.control := by
  have htop := h.top
  cases hcontrol : s.control with
  | nil => exact .inr nofun
  | cons c rest =>
    rw [hcontrol] at htop
    cases c with
    | body => exact .inl ⟨rest, rfl, htop⟩
    | drain budget =>
      refine .inr fun c hc => ?_
      rcases List.mem_cons.mp hc with rfl | hc
      · nofun
      · exact htop c hc

/-! ## §3 Resuming and settling -/

def OwnMet (s : State V) (kind : Kind) : Prop :=
  match kind with
  | .next => s.started = true → s.mode = false
  | .returns => s.started = true
  | .throws => True

instance (s : State V) (kind : Kind) : Decidable (OwnMet s kind) :=
  match kind with
  | .next => inferInstanceAs (Decidable (s.started = true → s.mode = false))
  | .returns => inferInstanceAs (Decidable (s.started = true))
  | .throws => isTrue trivial

def visible (s : State V) (r : Request V) : Given V :=
  match r.kind with
  | .throws => .throws r.value
  | .returns => if s.started then .returns r.value else .start
  | .next =>
    if s.started then (if s.mode then .returns (s.returnValue.getD r.value) else .value r.value)
    else .start

theorem visible_eq_own_iff (s : State V) (r : Request V) :
    visible s r = r.own (!s.started) ↔ OwnMet s r.kind := by
  obtain ⟨id, kind, value⟩ := r
  cases kind with
  | throws => simp [visible, Request.own, OwnMet]
  | returns =>
    cases hstarted : s.started with
    | true => simp [visible, Request.own, OwnMet, hstarted]
    | false => simp [visible, Request.own, OwnMet, hstarted]
  | next =>
    cases hstarted : s.started with
    | false => simp [visible, Request.own, OwnMet, hstarted]
    | true =>
      cases hmode : s.mode with
      | true => simp [visible, Request.own, OwnMet, hstarted, hmode]
      | false => simp [visible, Request.own, OwnMet, hstarted, hmode]

/-- `return` arms the pending mode before the body is resumed. -/
def State.arm (s : State V) (r : Request V) : State V :=
  if r.kind = .returns then { s with mode := true, returnValue := some r.value } else s

theorem resumeHead_refused (hqueue : s.queue = r :: rest) (hdeep : maxResumeDepth ≤ s.resumeDepth) :
    s.resumeHead = s.arm r := by
  simp only [State.resumeHead, hqueue, State.arm]
  by_cases hkind : r.kind = .returns
  · simp only [hkind, if_true, State.resumeGenerator]
    exact if_pos hdeep
  · simp only [hkind, if_false, State.resumeGenerator]
    exact if_pos hdeep

theorem resumeHead_eq (hqueue : s.queue = r :: rest) (hdeep : s.resumeDepth < maxResumeDepth) :
    s.resumeHead =
      { s.arm r with
        executing := true
        started := true
        control := .body :: s.control
        resumed := s.resumed ++
          [⟨some r, visible s r, !s.started, s.running || s.awaiting, s.done⟩]
        inFlight := some r.id } := by
  have hnot : ¬ maxResumeDepth ≤ s.otherDepth + s.control.length := Nat.not_le.mpr hdeep
  obtain ⟨id, kind, value⟩ := r
  cases kind with
  | throws =>
    simp [State.resumeHead, hqueue, State.arm, visible, State.resumeGenerator, State.resumeDepth,
      hnot]
  | returns =>
    cases hstarted : s.started with
    | true =>
      simp [State.resumeHead, hqueue, State.arm, visible, State.resumeGenerator,
        State.resumeDepth, hnot, hstarted, State.running]
    | false =>
      simp [State.resumeHead, hqueue, State.arm, visible, State.resumeGenerator,
        State.resumeDepth, hnot, hstarted, State.running]
  | next =>
    cases hstarted : s.started with
    | false =>
      simp [State.resumeHead, hqueue, State.arm, visible, State.resumeGenerator,
        State.resumeDepth, hnot, hstarted]
    | true =>
      cases hmode : s.mode with
      | true =>
        simp [State.resumeHead, hqueue, State.arm, visible, State.resumeGenerator,
          State.resumeDepth, hnot, hstarted, hmode]
      | false =>
        simp [State.resumeHead, hqueue, State.arm, visible, State.resumeGenerator,
          State.resumeDepth, hnot, hstarted, hmode]

/-- The head of the queue can be resumed: nothing but that the queue may have no driver is wrong
with the state. -/
structure Ready (undefined : V) (s : State V) (r : Request V) (rest : List (Request V)) : Prop where
  queue : s.queue = r :: rest
  drains : AllDrains s.control
  awaiting : s.awaiting = false
  done : s.done = false
  executing : s.executing = false
  order : s.settled.map (fun e => e.request.id) ++ s.queue.map Request.id = List.range s.arrived
  own : ∀ e ∈ s.settled, match e.cause with
    | some id => id = e.request.id
    | none => e.outcome = completedOutcome undefined e.request
  resumed : ∀ e ∈ s.resumed, e.busy = false ∧ e.done = false ∧
    ∀ r, e.request = some r → e.given = r.own e.fresh
  returned : s.derailed = false

theorem arm_eq (s : State V) (r : Request V) :
    ∃ mode returnValue, s.arm r = { s with mode, returnValue } := by
  by_cases hkind : r.kind = .returns
  · exact ⟨true, some r.value, if_pos hkind⟩
  · exact ⟨s.mode, s.returnValue, if_neg hkind⟩

theorem Ready.resume (h : Ready undefined s r rest) (hdeep : s.resumeDepth < maxResumeDepth)
    (hown : OwnMet s r.kind) : Inv undefined s.resumeHead := by
  have hrunning := running_eq_false h.drains
  have hresumed : ∀ e ∈ s.resumed ++
      [⟨some r, visible s r, !s.started, s.running || s.awaiting, s.done⟩],
      e.busy = false ∧ e.done = false ∧ ∀ r, e.request = some r → e.given = r.own e.fresh := by
    intro e he
    rcases List.mem_append.mp he with he | he
    · exact h.resumed e he
    · obtain rfl := List.mem_singleton.mp he
      refine ⟨by simp [hrunning, h.awaiting], h.done, ?_⟩
      rintro r' ⟨⟩
      exact (visible_eq_own_iff s r).mpr hown
  have hhead : s.queue = r :: rest := h.queue
  rw [resumeHead_eq h.queue hdeep]
  obtain ⟨mode, returnValue, harm⟩ := arm_eq s r
  rw [harm]
  exact {
    fine := {
      order := h.order, own := h.own, resumed := hresumed, returned := h.returned
      parked := fun hawaiting => absurd hawaiting (by simp [h.awaiting])
      driven := fun _ => .inl (by simp)
      completed := fun hdone => absurd hdone (by simp [h.done]) }
    top := h.drains
    executing := by simp [State.running]
    exclusive := fun _ => h.awaiting
    active := fun _ => ⟨h.done, rfl, r, rest, hhead, rfl⟩
    notYielded := fun hawaiting => absurd hawaiting (by simp [h.awaiting])
    behindYield := fun hnot => absurd hnot (by simp [State.running]) }

theorem Ready.ownMet (h : Ready undefined s r rest) (hdeep : s.resumeDepth < maxResumeDepth)
    (hfine : Fine undefined s.resumeHead) : OwnMet s r.kind := by
  rw [resumeHead_eq h.queue hdeep] at hfine
  have hlast := hfine.resumed ⟨some r, visible s r, !s.started, s.running || s.awaiting, s.done⟩
    (by simp)
  exact (visible_eq_own_iff s r).mp (hlast.2.2 r rfl)

theorem Ready.refused (h : Ready undefined s r rest) (hyielded : s.yielded = true)
    (hcontrol : s.control ≠ []) (hdeep : maxResumeDepth ≤ s.resumeDepth) :
    Inv undefined s.resumeHead := by
  have hrunning := running_eq_false h.drains
  have htop : AllDrains s.control.tail := fun c hc => h.drains c (List.mem_of_mem_tail hc)
  have hidle : ∀ b : Bool, s.running = true ∨ s.awaiting = true → b = false := by
    intro b hbusy
    simp [hrunning, h.awaiting] at hbusy
  rw [resumeHead_refused h.queue hdeep]
  have hinv : Inv undefined s := {
    fine := {
      order := h.order, own := h.own, resumed := h.resumed, returned := h.returned
      parked := fun hawaiting => absurd hawaiting (by simp [h.awaiting])
      driven := fun _ => .inl hcontrol
      completed := fun hdone => absurd hdone (by simp [h.done]) }
    top := htop
    executing := by simp [h.executing, hrunning, h.awaiting]
    exclusive := fun _ => h.awaiting
    active := fun hbusy => absurd (hidle true hbusy) (by simp)
    notYielded := fun hawaiting => absurd hawaiting (by simp [h.awaiting])
    behindYield := fun _ _ _ => hyielded }
  obtain ⟨mode, returnValue, harm⟩ := arm_eq s r
  rw [harm]
  exact { hinv with fine := { hinv.fine with } }

def State.complete (undefined : V) (s : State V) (r : Request V) (rest : List (Request V))
    (outcome : Outcome V) : State V :=
  { s with
    queue := []
    settled := s.settled ++ [⟨r, outcome, s.inFlight⟩] ++
      rest.map fun q => ⟨q, .finished undefined, none⟩ }

/-- **A completion** answers the requests behind it as a completed generator would exactly when
the condition is met. -/
theorem complete_fine_iff (h : Fine undefined s) (hqueue : s.queue = r :: rest)
    (hinFlight : s.inFlight = some r.id) (outcome : Outcome V) {s' : State V}
    (hs' : s' = { s.complete undefined r rest outcome with
      executing := s'.executing, mode := s'.mode, returnValue := s'.returnValue, done := s'.done
      control := s'.control }) (hawaiting : s.awaiting = false) :
    Fine undefined s' ↔ ∀ q ∈ rest, completedOutcome undefined q = .finished undefined := by
  have hsettled : s'.settled = s.settled ++ [⟨r, outcome, s.inFlight⟩] ++
      rest.map fun q => ⟨q, .finished undefined, none⟩ := by
    rw [hs']
    rfl
  have hempty : s'.queue = [] := by
    rw [hs']
    rfl
  have horder : s'.settled.map (fun e => e.request.id) ++ s'.queue.map Request.id =
      List.range s'.arrived := by
    have hids : (s'.settled.map fun e => e.request.id) =
        s.settled.map (fun e => e.request.id) ++ s.queue.map Request.id := by
      rw [hsettled, hqueue]
      simp [Function.comp_def]
    have harrived : s'.arrived = s.arrived := by
      rw [hs']
      rfl
    rw [hids, hempty, harrived, List.map_nil, List.append_nil]
    exact h.order
  constructor
  · intro hfine q hq
    have hmem : (⟨q, .finished undefined, none⟩ : Settled V) ∈ s'.settled := by
      rw [hsettled]
      exact List.mem_append_right _ (List.mem_map_of_mem hq)
    exact (hfine.own _ hmem).symm
  · intro hrest
    refine {
      order := horder, own := ?_, resumed := ?_, parked := ?_, driven := ?_,
      completed := fun _ => hempty, returned := ?_ }
    · intro e he
      rw [hsettled] at he
      rcases List.mem_append.mp he with he | he
      · rcases List.mem_append.mp he with he | he
        · exact h.own e he
        · obtain rfl := List.mem_singleton.mp he
          simp [hinFlight]
      · obtain ⟨q, hq, rfl⟩ := List.mem_map.mp he
        exact (hrest q hq).symm
    · intro e he
      rw [hs'] at he
      exact h.resumed e he
    · intro hpark
      rw [hs'] at hpark
      exact absurd hpark (by simp [State.complete, hawaiting])
    · intro hne
      exact absurd hempty hne
    · rw [hs']
      exact h.returned

/-! ## §4 Runs -/

/-- What a label must meet. A request that finds the generator idle, and an await that is resumed:
the nesting is not full, and the request's completion is one the body sees. A completion:
behind its request wait only such that a completed generator answers with
`undefined`. A pass of a drain loop: it does not leave requests behind, and what it resumes
sees its own completion. An await: the frame is not taken for an async function's behind
a yield or above a frame. -/
def Met (undefined : V) (s : State V) : Label V → Prop
  | .request kind _ => s.draining = false → s.done = false → s.executing = false →
    s.resumeDepth < maxResumeDepth ∧ OwnMet s kind
  | .awaits _ looksAsync below => s.control.head? = some .body → looksAsync = true →
    below = false ∧ s.yielded = false
  | .returns _ => s.control.head? = some .body → ∀ q ∈ s.queue.tail,
    completedOutcome undefined q = .finished undefined
  | .throws _ => s.control.head? = some .body → ∀ q ∈ s.queue.tail,
    completedOutcome undefined q = .finished undefined
  | .awaitSettles _ => s.awaiting = true → s.draining = false → s.resumeDepth < maxResumeDepth
  | .drainPass => ∀ budget rest, s.control = .drain budget :: rest →
    if budget = 0 ∨ s.yielded = false ∨ s.queue = [] then
      budget = 0 → rest = [] → s.awaiting = false → s.queue = []
    else s.resumeDepth < maxResumeDepth → ∀ r, s.queue.head? = some r → OwnMet s r.kind
  | _ => True

theorem completed_order (h : Inv undefined s) (hdone : s.done = true) :
    s.settled.map (fun e => e.request.id) = List.range s.arrived := by
  have horder := h.fine.order
  rw [h.fine.completed hdone, List.map_nil, List.append_nil] at horder
  exact horder

theorem Inv.answer (h : Inv undefined s) (hdone : s.done = true) (kind : Kind) (value : V) :
    Inv undefined { s with
      arrived := s.arrived + 1
      settled := s.settled ++
        [⟨⟨s.arrived, kind, value⟩, completedOutcome undefined ⟨s.arrived, kind, value⟩, none⟩] } := by
  have hempty := h.fine.completed hdone
  refine { h with fine := { h.fine with order := ?_, own := ?_ } }
  · rw [hempty, List.map_append, completed_order h hdone, List.range_succ]
    simp
  · intro e he
    rcases List.mem_append.mp he with he | he
    · exact h.fine.own e he
    · obtain rfl := List.mem_singleton.mp he
      rfl

theorem order_enqueue (h : Fine undefined s) (r : Request V) (hr : r.id = s.arrived) :
    s.settled.map (fun e => e.request.id) ++ (s.queue ++ [r]).map Request.id =
      List.range (s.arrived + 1) := by
  rw [List.map_append, ← List.append_assoc, h.order, List.range_succ]
  simp [hr]

theorem Inv.enqueue (h : Inv undefined s) (hexecuting : s.executing = true) (kind : Kind)
    (value : V) :
    Inv undefined { s with
      arrived := s.arrived + 1, queue := s.queue ++ [⟨s.arrived, kind, value⟩] } := by
  have hbusy : s.running = true ∨ s.awaiting = true := by
    have heq := h.executing
    rw [hexecuting] at heq
    simpa using heq.symm
  obtain ⟨hdone, hstarted, r, rest, hqueue, hinFlight⟩ := h.active hbusy
  refine { h with
    fine := { h.fine with order := ?_, parked := ?_, driven := ?_, completed := ?_ }
    active := ?_, behindYield := ?_ }
  · exact order_enqueue h.fine _ rfl
  · intro _
    simp [hqueue, hinFlight]
  · intro _
    rcases hbusy with hrunning | hawaiting
    · refine .inl fun hnil => ?_
      have hcontrol : s.control = [] := hnil
      simp [State.running, hcontrol] at hrunning
    · exact .inr hawaiting
  · intro hdone'
    have hdone' : s.done = true := hdone'
    rw [hdone] at hdone'
    cases hdone'
  · exact fun _ => ⟨hdone, hstarted, r, rest ++ [⟨s.arrived, kind, value⟩], by simp [hqueue],
      hinFlight⟩
  · intro hrunning hawaiting _
    have hrunning : s.running = false := hrunning
    have hawaiting : s.awaiting = false := hawaiting
    rcases hbusy with hb | hb
    · rw [hrunning] at hb
      cases hb
    · rw [hawaiting] at hb
      cases hb

theorem Inv.ready_request (h : Inv undefined s) (hdraining : s.draining = false)
    (hdone : s.done = false) (hexecuting : s.executing = false) (kind : Kind) (value : V) :
    s.control = [] ∧
    Ready undefined { s with
      arrived := s.arrived + 1, queue := s.queue ++ [⟨s.arrived, kind, value⟩] }
      ⟨s.arrived, kind, value⟩ [] := by
  have heq := h.executing
  rw [hexecuting] at heq
  have hidle : s.running = false ∧ s.awaiting = false := by
    simpa using heq.symm
  have hcontrol : s.control = [] := by
    rcases h.cases_control with ⟨rest, hbody, -⟩ | hdrains
    · rw [running_body hbody] at hidle
      cases hidle.1
    · cases hcontrol : s.control with
      | nil => rfl
      | cons c rest =>
        cases c with
        | body => exact absurd rfl (hdrains .body (by simp [hcontrol]))
        | drain budget => simp [State.draining, hcontrol] at hdraining
  have hempty : s.queue = [] := by
    by_contra hne
    rcases h.fine.driven hne with hdriven | hdriven
    · exact hdriven hcontrol
    · rw [hidle.2] at hdriven
      cases hdriven
  refine ⟨hcontrol, {
    queue := by simp [hempty]
    drains := by
      intro c hc
      have hc : c ∈ s.control := hc
      rw [hcontrol] at hc
      cases hc
    awaiting := hidle.2, done := hdone, executing := hexecuting
    order := order_enqueue h.fine _ rfl
    own := h.fine.own, resumed := h.fine.resumed, returned := h.fine.returned }⟩

/-- **A request** keeps what should hold exactly when it meets the condition. -/
theorem step_request (h : Inv undefined s) (kind : Kind) (value : V) :
    (Fine undefined (step undefined s (.request kind value)) → Met undefined s (.request kind value)) ∧
      (Met undefined s (.request kind value) →
        Inv undefined (step undefined s (.request kind value))) := by
  simp only [step, Met]
  by_cases hdraining : s.draining = true
  · have hstep : request undefined s kind value = s := by simp [request, hdraining]
    rw [hstep]
    exact ⟨fun _ hnot => absurd hdraining (by simp [hnot]), fun _ => h⟩
  have hdraining : s.draining = false := by simpa using hdraining
  by_cases hdone : s.done = true
  · have hstep : request undefined s kind value = { s with
        arrived := s.arrived + 1
        settled := s.settled ++ [⟨⟨s.arrived, kind, value⟩,
          completedOutcome undefined ⟨s.arrived, kind, value⟩, none⟩] } := by
      simp [request, hdraining, hdone]
    rw [hstep]
    exact ⟨fun _ _ hnot => absurd hdone (by simp [hnot]), fun _ => h.answer hdone kind value⟩
  have hdone : s.done = false := by simpa using hdone
  by_cases hexecuting : s.executing = true
  · have hstep : request undefined s kind value = { s with
        arrived := s.arrived + 1, queue := s.queue ++ [⟨s.arrived, kind, value⟩] } := by
      simp [request, hdraining, hdone, hexecuting]
    rw [hstep]
    exact ⟨fun _ _ _ hnot => absurd hexecuting (by simp [hnot]),
      fun _ => h.enqueue hexecuting kind value⟩
  have hexecuting : s.executing = false := by simpa using hexecuting
  have hstep : request undefined s kind value = ({ s with
      arrived := s.arrived + 1
      queue := s.queue ++ [(⟨s.arrived, kind, value⟩ : Request V)] } : State V).resumeHead := by
    simp [request, hdraining, hdone, hexecuting]
  obtain ⟨hcontrol, hready⟩ := h.ready_request hdraining hdone hexecuting kind value
  rw [hstep]
  constructor
  · intro hfine _ _ _
    by_cases hdeep : s.resumeDepth < maxResumeDepth
    · exact ⟨hdeep, hready.ownMet hdeep hfine⟩
    · -- Refused: the request waits and nothing drives it.
      rw [resumeHead_refused hready.queue (Nat.not_lt.mp hdeep)] at hfine
      obtain ⟨mode, returnValue, harm⟩ := arm_eq ({ s with
        arrived := s.arrived + 1
        queue := s.queue ++ [(⟨s.arrived, kind, value⟩ : Request V)] } : State V)
        (⟨s.arrived, kind, value⟩ : Request V)
      rw [harm] at hfine
      have hwaits : s.queue ++ [(⟨s.arrived, kind, value⟩ : Request V)] ≠ [] := by simp
      have hawaiting : ¬ s.awaiting = true := by
        have hidle : s.awaiting = false := hready.awaiting
        simp [hidle]
      rcases hfine.driven hwaits with hdriven | hdriven
      · exact absurd hcontrol hdriven
      · exact absurd hdriven hawaiting
  · intro hmet
    obtain ⟨hdeep, hown⟩ := hmet hdraining hdone hexecuting
    exact hready.resume hdeep hown

theorem Inv.onTop (h : Inv undefined s) (hcontrol : s.control = .body :: below) :
    AllDrains below ∧ s.awaiting = false ∧ s.done = false ∧
      s.started = true ∧ s.executing = true ∧
      ∃ r rest, s.queue = r :: rest ∧ s.inFlight = some r.id := by
  have hrunning := running_body hcontrol
  obtain ⟨hdone, hstarted, hhead⟩ := h.active (.inl hrunning)
  have htop := h.top
  rw [hcontrol] at htop
  refine ⟨htop, h.exclusive hrunning, hdone, hstarted, ?_, hhead⟩
  rw [h.executing, hrunning, Bool.true_or]

theorem allDrains_cons (h : AllDrains below) (budget : Nat) :
    AllDrains (.drain budget :: below) := by
  intro c hc
  rcases List.mem_cons.mp hc with rfl | hc
  · nofun
  · exact h c hc

theorem onTop_iff :
    s.control.head? = some .body ↔ ∃ below, s.control = .body :: below := by
  cases hcontrol : s.control with
  | nil => simp
  | cons c below => simp

theorem offTop (h : AllDrains s.control) : s.control.head? ≠ some .body := by
  intro hbody
  obtain ⟨below, hcontrol⟩ := onTop_iff.mp hbody
  exact h .body (by simp [hcontrol]) rfl

theorem step_offTop (h : AllDrains s.control) (v : V) :
    step undefined s (.yields v) = s ∧
      (∀ looksAsync below, step undefined s (.awaits v looksAsync below) = s) ∧
      step undefined s (.returns v) = s ∧ step undefined s (.throws v) = s := by
  cases hcontrol : s.control with
  | nil => simp [step, hcontrol]
  | cons c rest =>
    cases c with
    | body => exact absurd rfl (h .body (by simp [hcontrol]))
    | drain budget => simp [step, hcontrol]

/-- **A yield** settles the request in flight. -/
theorem Inv.yields (h : Inv undefined s) (v : V) :
    Inv undefined (step undefined s (.yields v)) := by
  rcases h.cases_control with ⟨below, hcontrol, -⟩ | hdrains
  · obtain ⟨htop, hawaiting, hdone, hstarted, hexecuting, r, rest, hqueue, hinFlight⟩ :=
      h.onTop hcontrol
    have hdrains := allDrains_cons htop (rest.length + 1)
    have hstep : V12.AsyncGen.step undefined s (.yields v) = { s with
        yielded := true
        executing := false
        queue := rest
        settled := s.settled ++ [⟨r, .yielded v, s.inFlight⟩]
        control := .drain (rest.length + 1) :: below } := by
      simp [V12.AsyncGen.step, hcontrol, State.settleSlot, hqueue, State.toDrain]
    rw [hstep]
    have hrunning := running_eq_false (s := { s with control := .drain (rest.length + 1) :: below })
      hdrains
    simp only [State.running] at hrunning
    refine {
      fine := { h.fine with
        order := ?_, own := ?_, parked := ?_, driven := fun _ => .inl (by simp), completed := ?_ }
      top := htop
      executing := by
        simp only [State.running]
        rw [hrunning, hawaiting, Bool.or_false]
      exclusive := fun _ => hawaiting
      active := ?_, notYielded := ?_, behindYield := fun _ _ _ => rfl }
    · have horder := h.fine.order
      rw [hqueue] at horder
      simpa using horder
    · intro e he
      rcases List.mem_append.mp he with he | he
      · exact h.fine.own e he
      · obtain rfl := List.mem_singleton.mp he
        simp [hinFlight]
    · intro hpark
      exact absurd hpark (by simp [hawaiting])
    · intro hdone'
      exact absurd hdone' (by simp [hdone])
    · rintro (hrun | hpark)
      · simp only [State.running] at hrun
        rw [hrunning] at hrun
        cases hrun
      · exact absurd hpark (by simp [hawaiting])
    · intro hpark
      exact absurd hpark (by simp [hawaiting])
  · rw [(step_offTop hdrains v).1]
    exact h

/-- **An await** leaves the request in flight at the head, unless its frame is taken for another's. -/
theorem step_awaits (h : Inv undefined s) (v : V) (looksAsync below : Bool) :
    (Fine undefined (step undefined s (.awaits v looksAsync below)) →
        Met undefined s (.awaits v looksAsync below)) ∧
      (Met undefined s (.awaits v looksAsync below) →
        Inv undefined (step undefined s (.awaits v looksAsync below))) := by
  rcases h.cases_control with ⟨rest, hcontrol, -⟩ | hdrains
  · obtain ⟨htop, hawaiting, hdone, hstarted, hexecuting, r, waiting, hqueue, hinFlight⟩ :=
      h.onTop hcontrol
    have hbody : s.control.head? = some .body := onTop_iff.mpr ⟨rest, hcontrol⟩
    by_cases hbelow : (looksAsync && below) = true
    · have hboth : looksAsync = true ∧ below = true := by simpa using hbelow
      have hstep : step undefined s (.awaits v looksAsync below) = { s with derailed := true } := by
        simp [step, hcontrol, hboth.1, hboth.2]
      rw [hstep]
      refine ⟨fun hfine => absurd hfine.returned (by simp), fun hmet => ?_⟩
      have hnot := (hmet hbody hboth.1).1
      rw [hboth.2] at hnot
      cases hnot
    by_cases hsettled : looksAsync = true ∧ s.yielded = true
    · -- The leftover flag of the last yield settles the request that is at the await.
      obtain ⟨hlooks, hyielded⟩ := hsettled
      have hnot : below = false := by simpa [hlooks] using hbelow
      have hstep : step undefined s (.awaits v looksAsync below) = { s with
          awaiting := true
          queue := waiting
          settled := s.settled ++ [⟨r, .yielded v, s.inFlight⟩]
          control := .drain (waiting.length + 1) :: rest } := by
        simp [step, hcontrol, hlooks, hnot, State.settleSlot, hyielded, hqueue, State.toDrain]
      rw [hstep]
      refine ⟨fun hfine => ?_, fun hmet => ?_⟩
      · have hparked := hfine.parked rfl
        have horder := h.fine.order
        have hnodup : (s.settled.map (fun e => e.request.id) ++ s.queue.map Request.id).Nodup := by
          rw [horder]
          exact List.nodup_range
        have htail := (List.nodup_append.mp hnodup).2.1
        rw [hqueue, List.map_cons, List.nodup_cons] at htail
        rw [hinFlight] at hparked
        obtain ⟨q, hq, hid⟩ := Option.map_eq_some_iff.mp hparked
        refine absurd ?_ htail.1
        rw [← hid]
        exact List.mem_map_of_mem (List.mem_of_mem_head? hq)
      · have hnot := (hmet hbody hlooks).2
        rw [hyielded] at hnot
        cases hnot
    · refine ⟨fun _ _ hlooks => ?_, fun _ => ?_⟩
      · have hnot : below = false := by simpa [hlooks] using hbelow
        have hyielded : ¬ s.yielded = true := fun hyielded => hsettled ⟨hlooks, hyielded⟩
        exact ⟨hnot, by simpa using hyielded⟩
      have hstep : step undefined s (.awaits v looksAsync below) = { s with
          yielded := false
          awaiting := true
          control := .drain (s.queue.length + 1) :: rest } := by
        cases hlooks : looksAsync with
        | false =>
          simp [step, hcontrol, hexecuting, State.settleSlot, State.toDrain]
        | true =>
          have hnot : below = false := by simpa [hlooks] using hbelow
          have hyielded : s.yielded = false := by
            have hyielded : ¬ s.yielded = true := fun hyielded => hsettled ⟨hlooks, hyielded⟩
            simpa using hyielded
          simp [step, hcontrol, hnot, State.settleSlot, State.toDrain, hyielded]
      rw [hstep]
      have hdrains := allDrains_cons htop (s.queue.length + 1)
      exact {
        fine := { h.fine with
          parked := fun _ => by simp [hqueue, hinFlight]
          driven := fun _ => .inr rfl }
        top := htop
        executing := by simp [hexecuting]
        exclusive := fun hrun => by
          rw [running_eq_false hdrains] at hrun
          cases hrun
        active := fun _ => ⟨hdone, hstarted, r, waiting, hqueue, hinFlight⟩
        notYielded := fun _ => rfl
        behindYield := fun _ hnot => by cases hnot }
  · rw [(step_offTop hdrains v).2.1]
    exact ⟨fun _ hbody => absurd hbody (offTop hdrains), fun _ => h⟩

theorem Inv.completes {s' : State V} (h : Inv undefined s) (hcontrol : s.control = .body :: below)
    (outcome : Outcome V) (hs' : s' = { s.complete undefined r rest outcome with
      executing := false, mode := s'.mode, returnValue := s'.returnValue, done := true
      control := s'.control }) (hdrains : AllDrains s'.control) (hfine : Fine undefined s') :
    Inv undefined s' := by
  obtain ⟨htop, hawaiting, hdone, hstarted, hexecuting, -⟩ := h.onTop hcontrol
  have hrunning := running_eq_false hdrains
  have hexecuting' : s'.executing = false := by rw [hs']
  have hawaiting' : s'.awaiting = false := by
    rw [hs']
    exact hawaiting
  have hempty : s'.queue = [] := by
    rw [hs']
    rfl
  exact {
    fine := hfine
    top := fun c hc => hdrains c (List.mem_of_mem_tail hc)
    executing := by rw [hexecuting', hrunning, hawaiting', Bool.or_false]
    exclusive := fun _ => hawaiting'
    active := by
      rintro (hrun | hpark)
      · rw [hrunning] at hrun
        cases hrun
      · rw [hawaiting'] at hpark
        cases hpark
    notYielded := fun hpark => by
      rw [hawaiting'] at hpark
      cases hpark
    behindYield := fun _ _ hne => absurd hempty hne }

/-- **An end of the body**: the requests behind the one it answers take no value. -/
theorem Inv.ends (h : Inv undefined s) (hcontrol : s.control = .body :: below)
    (hqueue : s.queue = r :: rest) (hinFlight : s.inFlight = some r.id) (outcome : Outcome V)
    (mode : Bool) (returnValue : Option V) {control : List Control} (hdrains : AllDrains control)
    {s' : State V}
    (hs' : s' = { s.complete undefined r rest outcome with
      executing := false, mode, returnValue, done := true, control }) :
    (Fine undefined s' → ∀ q ∈ s.queue.tail, completedOutcome undefined q = .finished undefined) ∧
      ((∀ q ∈ s.queue.tail, completedOutcome undefined q = .finished undefined) →
        Inv undefined s') := by
  have hiff : Fine undefined s' ↔ ∀ q ∈ rest, completedOutcome undefined q = .finished undefined :=
    complete_fine_iff h.fine hqueue hinFlight outcome (by rw [hs']) (h.onTop hcontrol).2.1
  rw [hqueue, List.tail_cons]
  refine ⟨hiff.mp, fun hrest => h.completes hcontrol outcome (by rw [hs']) ?_ (hiff.mpr hrest)⟩
  rwa [hs']

/-- **A return** of the body. -/
theorem step_returns (h : Inv undefined s) (v : V) :
    (Fine undefined (step undefined s (.returns v)) → Met undefined s (.returns v)) ∧
      (Met undefined s (.returns v) → Inv undefined (step undefined s (.returns v))) := by
  rcases h.cases_control with ⟨below, hcontrol, -⟩ | hdrains
  · obtain ⟨htop, -, -, -, -, r, rest, hqueue, hinFlight⟩ := h.onTop hcontrol
    obtain ⟨hfine, hinv⟩ := h.ends hcontrol hqueue hinFlight (.finished v) false none
      (allDrains_cons htop 1) (show step undefined s (.returns v) = _ by
        simp [step, hcontrol, State.settleSlot, hqueue, State.toDrain, State.drainCompleted,
          State.complete])
    exact ⟨fun h' _ => hfine h', fun hmet => hinv (hmet (onTop_iff.mpr ⟨below, hcontrol⟩))⟩
  · rw [(step_offTop hdrains v).2.2.1]
    exact ⟨fun _ hbody => absurd hbody (offTop hdrains), fun _ => h⟩

/-- **A throw** out of the body. -/
theorem step_throws (h : Inv undefined s) (e : V) :
    (Fine undefined (step undefined s (.throws e)) → Met undefined s (.throws e)) ∧
      (Met undefined s (.throws e) → Inv undefined (step undefined s (.throws e))) := by
  rcases h.cases_control with ⟨below, hcontrol, -⟩ | hdrains
  · obtain ⟨htop, -, -, -, -, r, rest, hqueue, hinFlight⟩ := h.onTop hcontrol
    obtain ⟨hfine, hinv⟩ := h.ends hcontrol hqueue hinFlight (.rejected e) s.mode s.returnValue htop
      (show step undefined s (.throws e) = _ by
        simp [step, hcontrol, State.settleSlot, hqueue, State.drainCompleted, State.complete])
    exact ⟨fun h' _ => hfine h', fun hmet => hinv (hmet (onTop_iff.mpr ⟨below, hcontrol⟩))⟩
  · rw [(step_offTop hdrains e).2.2.2]
    exact ⟨fun _ hbody => absurd hbody (offTop hdrains), fun _ => h⟩

theorem draining_of_drains (h : AllDrains s.control) (hdraining : s.draining = false) :
    s.control = [] := by
  cases hcontrol : s.control with
  | nil => rfl
  | cons c rest =>
    cases c with
    | body => exact absurd rfl (h .body (by simp [hcontrol]))
    | drain budget => simp [State.draining, hcontrol] at hdraining

/-- **The settlement of an await** resumes the body for the request in flight. -/
theorem step_awaitSettles (h : Inv undefined s) (given : Given V) :
    (Fine undefined (step undefined s (.awaitSettles given)) →
        Met undefined s (.awaitSettles given)) ∧
      (Met undefined s (.awaitSettles given) →
        Inv undefined (step undefined s (.awaitSettles given))) := by
  by_cases hbranch : s.awaiting = true ∧ s.draining = false
  · obtain ⟨hawaiting, hdraining⟩ := hbranch
    obtain ⟨hdone, hstarted, r, rest, hqueue, hinFlight⟩ := h.active (.inr hawaiting)
    have hrunning : s.running = false := by
      by_contra hrun
      have hnot := h.exclusive (by simpa using hrun)
      rw [hawaiting] at hnot
      cases hnot
    have hcontrol : s.control = [] := by
      rcases h.cases_control with ⟨below, hbody, -⟩ | hdrains
      · rw [running_body hbody] at hrunning
        cases hrunning
      · exact draining_of_drains hdrains hdraining
    by_cases hdeep : s.resumeDepth < maxResumeDepth
    · have hnot : ¬ maxResumeDepth ≤ s.otherDepth + s.control.length := Nat.not_le.mpr hdeep
      have hstep : step undefined s (.awaitSettles given) = { s with
          awaiting := false
          executing := true
          started := true
          control := [.body]
          resumed := s.resumed ++ [⟨none, given, false, false, false⟩] } := by
        have hnot : ¬ maxResumeDepth ≤ s.otherDepth := by simpa [hcontrol] using hnot
        simp [step, hawaiting, hdraining, State.resumeGenerator, State.resumeDepth, hcontrol, hnot,
          hstarted, hrunning, hdone]
      rw [hstep]
      refine ⟨fun _ _ _ => hdeep, fun _ => ?_⟩
      refine {
        fine := { h.fine with resumed := ?_, parked := nofun, driven := fun _ => .inl (by simp) }
        top := nofun
        executing := rfl
        exclusive := fun _ => rfl
        active := fun _ => ⟨hdone, rfl, r, rest, hqueue, hinFlight⟩
        notYielded := nofun
        behindYield := nofun }
      intro e he
      rcases List.mem_append.mp he with he | he
      · exact h.fine.resumed e he
      · obtain rfl := List.mem_singleton.mp he
        exact ⟨rfl, rfl, nofun⟩
    · have hstep : step undefined s (.awaitSettles given) = { s with awaiting := false } := by
        have hdeep : maxResumeDepth ≤ s.otherDepth := by
          simpa [State.resumeDepth, hcontrol] using hdeep
        simp [step, hawaiting, hdraining, State.resumeGenerator, State.resumeDepth, hcontrol, hdeep]
      rw [hstep]
      refine ⟨fun hfine => ?_, fun hmet => absurd (hmet hawaiting hdraining) hdeep⟩
      -- Nothing is left that would resume the body.
      have hwaits : s.queue ≠ [] := by simp [hqueue]
      rcases hfine.driven hwaits with hdriven | hdriven
      · exact absurd hcontrol hdriven
      · cases hdriven
  · have hstep : step undefined s (.awaitSettles given) = s := by
      simp only [step]
      refine if_neg fun hboth => hbranch ?_
      simpa using hboth
    rw [hstep]
    exact ⟨fun _ hawaiting hdraining => absurd ⟨hawaiting, hdraining⟩ hbranch, fun _ => h⟩

theorem Inv.ready_drain (h : Inv undefined s) {budget : Nat}
    (hcontrol : s.control = .drain budget :: below) (hyielded : s.yielded = true)
    (hqueue : s.queue = r :: rest) (budget' : Nat) :
    Ready undefined { s with control := .drain budget' :: below } r rest := by
  have hdrains : AllDrains s.control := by
    rcases h.cases_control with ⟨below', hbody, -⟩ | hdrains
    · rw [hcontrol] at hbody
      cases hbody
    · exact hdrains
  have hawaiting : s.awaiting = false := by
    by_contra hpark
    have hnot := h.notYielded (by simpa using hpark)
    rw [hyielded] at hnot
    cases hnot
  have hdone : s.done = false := by
    by_contra hdone
    have hempty := h.fine.completed (by simpa using hdone)
    rw [hqueue] at hempty
    cases hempty
  exact {
    queue := hqueue
    drains := allDrains_cons (fun c hc => hdrains c (by simp [hcontrol, hc])) budget'
    awaiting := hawaiting
    done := hdone
    executing := by
      have hexecuting := h.executing
      rw [running_eq_false hdrains, hawaiting] at hexecuting
      exact hexecuting
    order := h.fine.order, own := h.fine.own, resumed := h.fine.resumed
    returned := h.fine.returned }

/-- **A pass of the drain loop** on top. -/
theorem step_drainPass (h : Inv undefined s) :
    (Fine undefined (step undefined s .drainPass) → Met undefined s .drainPass) ∧
      (Met undefined s .drainPass → Inv undefined (step undefined s .drainPass)) := by
  by_cases hdrain : ∃ budget below, s.control = .drain budget :: below
  · obtain ⟨budget, below, hcontrol⟩ := hdrain
    have hdrains : AllDrains s.control := by
      rcases h.cases_control with ⟨below', hbody, -⟩ | hdrains
      · rw [hcontrol] at hbody
        cases hbody
      · exact hdrains
    have hbelow : AllDrains below := fun c hc => hdrains c (by simp [hcontrol, hc])
    by_cases hends : budget = 0 ∨ s.yielded = false ∨ s.queue = []
    · have hstep : step undefined s .drainPass = { s with control := below } := by
        simp only [step, hcontrol, if_pos hends]
      rw [hstep]
      constructor
      · intro hfine budget' below' hcontrol'
        rw [hcontrol] at hcontrol'
        obtain ⟨⟨⟩, rfl⟩ := List.cons.inj hcontrol'
        rw [if_pos hends]
        intro _ hnil hawaiting
        by_contra hwaits
        rcases hfine.driven hwaits with hdriven | hdriven
        · exact hdriven hnil
        · have hdriven : s.awaiting = true := hdriven
          rw [hawaiting] at hdriven
          cases hdriven
      · intro hmet
        have hmet := hmet budget below hcontrol
        rw [if_pos hends] at hmet
        have hrunning := running_eq_false hdrains
        have hrunning' : ({ s with control := below } : State V).running = false :=
          running_eq_false hbelow
        have hdriven : s.queue ≠ [] → below ≠ [] ∨ s.awaiting = true := by
          intro hwaits
          by_contra hnone
          obtain ⟨hnil, hpark⟩ := not_or.mp hnone
          have hnil : below = [] := not_not.mp hnil
          have hawaiting : s.awaiting = false := by simpa using hpark
          have hyielded := h.behindYield hrunning hawaiting hwaits
          have hzero : budget = 0 := by
            rcases hends with hzero | hyield | hempty
            · exact hzero
            · rw [hyielded] at hyield
              cases hyield
            · exact absurd hempty hwaits
          exact hwaits (hmet hzero hnil hawaiting)
        exact {
          fine := { h.fine with driven := hdriven }
          top := fun c hc => hbelow c (List.mem_of_mem_tail hc)
          executing := by
            rw [hrunning']
            have hexecuting := h.executing
            rw [hrunning] at hexecuting
            exact hexecuting
          exclusive := fun hrun => by
            rw [hrunning'] at hrun
            cases hrun
          active := fun hbusy => h.active (hbusy.imp_left fun hrun => by
            rw [hrunning'] at hrun
            cases hrun)
          notYielded := h.notYielded
          behindYield := fun _ => h.behindYield hrunning }
    · obtain ⟨hbudget, hyield, hwaits⟩ := not_or.mp hends |>.imp_right not_or.mp
      have hyielded : s.yielded = true := by simpa using hyield
      obtain ⟨r, rest, hqueue⟩ := List.exists_cons_of_ne_nil hwaits
      have hready := h.ready_drain hcontrol hyielded hqueue (budget - 1)
      have hstep : step undefined s .drainPass =
          ({ s with control := .drain (budget - 1) :: below } : State V).resumeHead := by
        simp only [step, hcontrol, if_neg hends]
      have hsame : ({ s with control := .drain (budget - 1) :: below } : State V).resumeDepth =
          s.resumeDepth := by
        simp [State.resumeDepth, hcontrol]
      rw [hstep]
      constructor
      · intro hfine budget' below' hcontrol'
        rw [hcontrol] at hcontrol'
        obtain ⟨⟨⟩, rfl⟩ := List.cons.inj hcontrol'
        rw [if_neg hends]
        intro hdeep r' hr'
        rw [hqueue] at hr'
        obtain rfl := Option.some.inj hr'
        rw [← hsame] at hdeep
        exact hready.ownMet hdeep hfine
      · intro hmet
        have hmet := hmet budget below hcontrol
        rw [if_neg hends] at hmet
        by_cases hdeep : s.resumeDepth < maxResumeDepth
        · have hown := hmet hdeep r (by rw [hqueue]; rfl)
          rw [← hsame] at hdeep
          exact hready.resume hdeep hown
        · have hdeep := Nat.not_lt.mp hdeep
          rw [← hsame] at hdeep
          exact hready.refused hyielded (by simp) hdeep
  · have hstep : step undefined s .drainPass = s := by
      cases hcontrol : s.control with
      | nil => simp [step, hcontrol]
      | cons c rest =>
        cases c with
        | body => simp [step, hcontrol]
        | drain budget => exact absurd ⟨budget, rest, hcontrol⟩ hdrain
    rw [hstep]
    exact ⟨fun _ budget below hcontrol => absurd ⟨budget, below, hcontrol⟩ hdrain, fun _ => h⟩

/-- **A step** keeps what should hold exactly when it meets the condition. -/
theorem Inv.step (h : Inv undefined s) (l : Label V) :
    (Fine undefined (V12.AsyncGen.step undefined s l) → Met undefined s l) ∧
      (Met undefined s l → Inv undefined (V12.AsyncGen.step undefined s l)) := by
  cases l with
  | request kind value => exact step_request h kind value
  | yields v => exact ⟨fun _ => trivial, fun _ => h.yields v⟩
  | awaits v looksAsync below => exact step_awaits h v looksAsync below
  | returns v => exact step_returns h v
  | throws e => exact step_throws h e
  | awaitSettles given => exact step_awaitSettles h given
  | drainPass => exact step_drainPass h
  | depth n =>
    refine ⟨fun _ => trivial, fun _ => ?_⟩
    exact { h with fine := { h.fine with } }

theorem inv_empty (undefined : V) : Inv undefined State.empty where
  fine := {
    order := rfl, own := nofun, resumed := nofun, parked := nofun, driven := nofun
    completed := nofun, returned := rfl }
  top := nofun
  executing := rfl
  exclusive := nofun
  active := by rintro (h | h) <;> cases h
  notYielded := nofun
  behindYield := fun _ _ h => absurd rfl h

/-! ## §5 The queue over whole runs -/

/-- **Requests are served in order, each by its own resumption**, in every state of a run,
exactly when each step meets the condition. -/
theorem requests_served_iff (undefined : V) (labels : List (Label V)) :
    (∀ before after, labels = before ++ after →
        Fine undefined (Lib.run (step undefined) State.empty before)) ↔
      Lib.StepsMeet (step undefined) (Met undefined) State.empty labels :=
  Lib.states_iff_of_invariant (fun _ h => h.fine) (fun _ l h => (h.step l).1)
    (fun _ l h => (h.step l).2) (inv_empty undefined) labels

/-- A `throw(5)` that waits behind the `next()` whose resumption returns 3. -/
def queuedThrow : List (Label Nat) :=
  [.request .next 0, .awaits 7 false false, .drainPass, .request .throws 5,
    .awaitSettles (.value 7), .returns 3]

/-- The rejection is answered with `undefined`. -/
theorem not_requests_served :
    ¬ ∀ labels before after : List (Label Nat), labels = before ++ after →
      Fine 0 (Lib.run (step 0) State.empty before) := by
  intro hall
  have hfine := hall queuedThrow queuedThrow [] (by simp)
  have hown := hfine.own ⟨⟨1, .throws, 5⟩, .finished 0, none⟩ (by decide)
  exact absurd hown (by decide)

end V12.AsyncGen
