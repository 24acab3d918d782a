/-
V12.Interp.PendingAwaitsTheorems — what a drain of the pending awaits does.

§1 is about promises: a settled one stays as it is. §2 accounts for every await,
across any run: it is in the list, or it was resumed once. §3 follows a pass over the
list, and §4 the whole drain.
-/
import V12.Interp.PendingAwaits

namespace V12.Awaits

open Relation

variable {W P G V : Type}
variable {promises promises' : P → PromiseState V} {host : Host W P G V} {v : V} {s : State W P G V}
  {await : Await G V} {rest todo : List (Await G V)} {count progressed : Nat}
  {new : List (Resumption W P G V)}

/-! ## §1 Promises -/

def Later (promises promises' : P → PromiseState V) : Prop :=
  ∀ p, promises p ≠ .pending → promises' p = promises p

theorem Later.refl (promises : P → PromiseState V) : Later promises promises := fun _ _ => rfl

theorem Later.trans {promises'' : P → PromiseState V} (h : Later promises promises')
    (h' : Later promises' promises'') :
    Later promises promises'' := by
  intro p hp
  have hp' : promises' p ≠ .pending := by
    rw [h p hp]
    exact hp
  rw [h' p hp', h p hp]

theorem later_settle [DecidableEq P] (promises : P → PromiseState V) (s : P × PromiseState V) :
    Later promises (settle promises s) := by
  intro p hp
  unfold settle
  cases h : promises p with
  | pending => exact absurd h hp
  | fulfilled payload => rfl
  | rejected reason => rfl

theorem later_settles [DecidableEq P] (settles : List (P × PromiseState V)) (promises : P → PromiseState V) :
    Later promises (settles.foldl settle promises) := by
  induction settles generalizing promises with
  | nil => exact Later.refl promises
  | cons s rest ih => exact (later_settle promises s).trans (ih (settle promises s))

def Adopts (host : Host W P G V) (promises : P → PromiseState V) (v v' : V) : Prop :=
  ∃ p, host.asPromise v = some p ∧ promises p = .fulfilled v' ∧ (host.asPromise v').isSome

theorem Adopts.later {v' : V} (hlater : Later promises promises') (h : Adopts host promises v v') :
    Adopts host promises' v v' := by
  obtain ⟨p, hp, hstate, hv'⟩ := h
  refine ⟨p, hp, ?_, hv'⟩
  rw [hlater p (by simp [hstate]), hstate]

theorem adopts_of_adopt {payload : V} {isReject : Bool}
    (h : awaitResumeValue host promises v isReject = .adopt payload) :
    Adopts host promises v payload ∧ isReject = false := by
  unfold awaitResumeValue at h
  split at h
  · cases h
  · rename_i hreject
    split at h
    · cases h
    · rename_i p hp
      split at h
      · cases h
      · rename_i payload' hstate
        split at h
        · rename_i hpayload
          cases h
          exact ⟨⟨p, hp, hstate, hpayload⟩, by simpa using hreject⟩
        · cases h
      · cases h

theorem awaitResumeValue_later {isReject : Bool} (hlater : Later promises promises')
    (h : awaitResumeValue host promises v isReject ≠ .skip) :
    awaitResumeValue host promises' v isReject = awaitResumeValue host promises v isReject := by
  cases isReject with
  | true => rfl
  | false =>
    cases hp : host.asPromise v with
    | none => simp [awaitResumeValue, hp]
    | some p =>
      have hstate : promises p ≠ .pending := by
        intro hpending
        exact h (by simp [awaitResumeValue, hp, hpending])
      simp only [awaitResumeValue, hp, hlater p hstate]

/-! ## §2 Every await is accounted for -/

/-- The await in the list is this one, parked on what it adopted. -/
structure Waits (host : Host W P G V) (promises : P → PromiseState V) (e q : Await G V) :
    Prop where
  gen : q.gen = e.gen
  isReject : q.isReject = e.isReject
  value : ReflTransGen (Adopts host promises) e.value q.value

/-- The resumption is this await's, with the settlement of its promise, which had
settled. -/
structure Settles (host : Host W P G V) (e : Await G V) (r : Resumption W P G V) : Prop where
  gen : r.gen = e.gen
  settlement : ∃ v, ReflTransGen (Adopts host r.promises) e.value v ∧
    awaitResumeValue host r.promises v e.isReject = .run r.value r.reject

/-- Every await that ever entered the list was resumed once with its settlement, or is in
the list once. -/
structure Accounted (host : Host W P G V) (s : State W P G V) : Prop where
  tickets : ((s.resumed.map (·.ticket)) ++ s.pendingAwaits.map (·.ticket)).Perm
    (List.range s.arrived.length)
  resumed : ∀ r ∈ s.resumed, ∃ e, s.arrived[r.ticket]? = some e ∧ Settles host e r
  waiting : ∀ q ∈ s.pendingAwaits, ∃ e, s.arrived[q.ticket]? = some e ∧ Waits host s.promises e q

theorem Waits.later {e q : Await G V} (hlater : Later promises promises')
    (h : Waits host promises e q) :
    Waits host promises' e q := by
  refine ⟨h.gen, h.isReject, ?_⟩
  exact ReflTransGen.mono (fun _ _ hadopts => Adopts.later hlater hadopts) _ _ h.value

theorem append_tickets (s : State W P G V) (awaits : List (G × V × Bool)) :
    ((awaits.mapIdx fun i a => (⟨s.arrived.length + i, a.1, a.2.1, a.2.2⟩ : Await G V)).map
      (·.ticket)) = List.range' s.arrived.length awaits.length := by
  apply List.ext_getElem
  · simp
  · intro i hi hi'
    simp

theorem Accounted.append (h : Accounted host s) (awaits : List (G × V × Bool)) :
    Accounted host (s.append awaits) := by
  have hold : ∀ {t : Nat} {e : Await G V}, s.arrived[t]? = some e →
      (s.append awaits).arrived[t]? = some e := by
    intro t e he
    obtain ⟨hlt, -⟩ := List.getElem?_eq_some_iff.mp he
    simp only [State.append]
    rw [List.getElem?_append_left hlt, he]
  refine ⟨?_, ?_, ?_⟩
  · simp only [State.append, List.map_append, append_tickets, List.length_append,
      List.length_mapIdx]
    have hrange : List.range s.arrived.length ++ List.range' s.arrived.length awaits.length =
        List.range (s.arrived.length + awaits.length) := by
      rw [List.range_eq_range', List.range_eq_range']
      simpa using List.range'_append_1 (s := 0) (m := s.arrived.length) (n := awaits.length)
    rw [← List.append_assoc, ← hrange]
    exact h.tickets.append_right _
  · intro r hr
    obtain ⟨e, he, hsettles⟩ := h.resumed r hr
    exact ⟨e, hold he, hsettles⟩
  · intro q hq
    rcases List.mem_append.mp hq with hq | hq
    · obtain ⟨e, he, hwaits⟩ := h.waiting q hq
      exact ⟨e, hold he, hwaits⟩
    · obtain ⟨i, hi, rfl⟩ := List.mem_mapIdx.mp hq
      refine ⟨_, ?_, rfl, rfl, .refl⟩
      simp only [State.append]
      rw [List.getElem?_append_right (by omega)]
      simp [hi]

theorem Accounted.rotate {await' : Await G V} (h : Accounted host s)
    (hlist : s.pendingAwaits = await :: rest) (hticket : await'.ticket = await.ticket)
    (hwaits : ∀ e, Waits host s.promises e await → Waits host s.promises e await') :
    Accounted host { s with pendingAwaits := rest ++ [await'] } := by
  refine ⟨?_, h.resumed, ?_⟩
  · refine List.Perm.trans ?_ h.tickets
    simp only [hlist, List.map_append, List.map_cons, List.map_nil, hticket]
    exact (List.perm_append_singleton _ _).append_left _
  · intro q hq
    rcases List.mem_append.mp hq with hq | hq
    · exact h.waiting q (by rw [hlist]; exact List.mem_cons_of_mem _ hq)
    · obtain rfl : q = await' := by simpa using hq
      obtain ⟨e, he, hawait⟩ := h.waiting await (by rw [hlist]; exact List.mem_cons_self)
      exact ⟨e, by rw [hticket]; exact he, hwaits e hawait⟩

theorem Accounted.pendingSettlements (h : Accounted host s) (settlements : List (P × V × Bool)) :
    Accounted host { s with pendingSettlements := settlements } :=
  ⟨h.tickets, h.resumed, h.waiting⟩

variable [DecidableEq P]

theorem Accounted.resume {value : V} {reject : Bool} (h : Accounted host s)
    (hlist : s.pendingAwaits = await :: rest)
    (hrun : awaitResumeValue host s.promises await.value await.isReject = .run value reject) :
    Accounted host (State.resume host { s with pendingAwaits := rest } await value reject).1 := by
  have hlater := later_settles
    (host.resume s.world s.promises await.gen value reject).settles s.promises
  obtain ⟨e, he, hawait⟩ := h.waiting await (by rw [hlist]; exact List.mem_cons_self)
  -- The await moves from the list to the resumptions, and the rest waits on.
  have hmoved : ∀ (w : W) (settlements : List (P × V × Bool)) (deadline : Bool),
      Accounted host
        { s with
          world := w
          promises := (host.resume s.world s.promises await.gen value reject).settles.foldl settle
            s.promises
          pendingAwaits := rest
          pendingSettlements := settlements
          deadlineExceeded := deadline
          resumed := s.resumed ++ [⟨await.ticket, await.gen, value, reject, s.world, s.promises⟩] } := by
    intro w settlements deadline
    refine ⟨?_, ?_, ?_⟩
    · refine List.Perm.trans ?_ h.tickets
      simp only [hlist, List.map_append, List.map_cons, List.map_nil, List.append_assoc,
        List.singleton_append]
      exact List.Perm.refl _
    · intro r hr
      rcases List.mem_append.mp hr with hr | hr
      · exact h.resumed r hr
      · obtain rfl := List.mem_singleton.mp hr
        refine ⟨e, he, hawait.gen, await.value, hawait.value, ?_⟩
        rw [← hawait.isReject]
        exact hrun
    · intro q hq
      obtain ⟨e', he', hwaits⟩ := h.waiting q (by rw [hlist]; exact List.mem_cons_of_mem _ hq)
      exact ⟨e', he', hwaits.later hlater⟩
  unfold State.resume
  dsimp only
  split
  · exact (hmoved _ _ _).append _
  · split
    · exact ((hmoved _ _ _).append _).pendingSettlements _
    · exact (hmoved _ _ _).append _

theorem resumeNextAwait_accounted (h : Accounted host s) :
    Accounted host (resumeNextAwait host s).1 := by
  unfold resumeNextAwait
  split
  · exact h
  · split
    · exact h
    · rename_i await rest hlist
      split
      · exact h.rotate hlist rfl fun _ hwaits => hwaits
      · rename_i payload hadopt
        obtain ⟨hadopts, hreject⟩ := adopts_of_adopt hadopt
        refine h.rotate hlist rfl fun e hwaits => ⟨hwaits.gen, ?_, hwaits.value.tail hadopts⟩
        rw [← hwaits.isReject, hreject]
      · rename_i value reject hrun
        exact h.resume hlist hrun

theorem tryAwaits_accounted (count : Nat) (attempts progressed : Nat) (h : Accounted host s) :
    Accounted host (tryAwaits host count attempts progressed s).1 := by
  induction attempts generalizing progressed s with
  | zero => exact h
  | succ attempts ih =>
    simp only [tryAwaits]
    generalize (if (resumeNextAwait host s).2 = true then progressed + 1 else progressed) =
      progressed'
    split
    · exact resumeNextAwait_accounted h
    · exact ih _ (resumeNextAwait_accounted h)

theorem runJobs_accounted (count : Nat) (h : Accounted host s) :
    Accounted host (runJobs host count s).1 := by
  induction count, s using runJobs.induct host with
  | case1 count s hempty =>
    rw [runJobs, if_pos hempty]
    exact h
  | case2 count s hempty r hstop =>
    rw [runJobs, if_neg hempty]
    simp only
    rw [if_pos hstop]
    exact tryAwaits_accounted count _ 0 h
  | case3 count s hempty r hgo ih =>
    rw [runJobs, if_neg hempty]
    simp only
    rw [if_neg hgo]
    exact ih (tryAwaits_accounted count _ 0 h)

/-! ## §3 One pass over the list -/

def Failed (host : Host W P G V) (r : Resumption W P G V) : Prop :=
  ∃ error, (host.resume r.world r.promises r.gen r.value r.reject).thrown = some error ∧
    host.completion (host.resume r.world r.promises r.gen r.value r.reject).world r.gen = none

/-- The await is parked on a promise that is still pending, or on one adopted for it from
this list. -/
def Parked (host : Host W P G V) (promises : P → PromiseState V) (list : List (Await G V))
    (q : Await G V) : Prop :=
  awaitResumeValue host promises q.value q.isReject = .skip ∨
    ∃ e ∈ list, e.ticket = q.ticket ∧
      awaitResumeValue host promises e.value e.isReject = .adopt q.value

/-- What a resumption leaves: one more resumption, with new awaits behind the others. -/
structure ResumedOne (host : Host W P G V) (s : State W P G V) (r : Resumption W P G V)
    (s' : State W P G V × Bool) : Prop where
  resumed : s'.1.resumed = s.resumed ++ [r]
  awaits : ∃ added, s'.1.pendingAwaits = s.pendingAwaits ++ added
  later : Later s.promises s'.1.promises
  failed : s'.2 = false → s'.1.deadlineExceeded = true ∨ Failed host r

theorem resume_spec (host : Host W P G V) (s : State W P G V) (await : Await G V) (value : V)
    (reject : Bool) :
    ResumedOne host s ⟨await.ticket, await.gen, value, reject, s.world, s.promises⟩
      (State.resume host s await value reject) := by
  have hlater := later_settles
    (host.resume s.world s.promises await.gen value reject).settles s.promises
  unfold State.resume
  dsimp only
  cases hthrown : (host.resume s.world s.promises await.gen value reject).thrown with
  | none =>
    exact ⟨rfl, ⟨_, rfl⟩, hlater, fun hflag => .inl (by simpa using hflag)⟩
  | some error =>
    dsimp only
    split
    · exact ⟨rfl, ⟨_, rfl⟩, hlater, fun hflag => .inl (by simpa using hflag)⟩
    · rename_i hcompletion
      exact ⟨rfl, ⟨_, rfl⟩, hlater, fun _ => .inr ⟨error, hthrown, hcompletion⟩⟩

/-- What tries of the awaits at the front of the list do: they resume some of them in their
order; when they are not cut short, all whose promise has settled, and the others go to
the back. -/
structure Tried (host : Host W P G V) (count : Nat) (todo rest : List (Await G V))
    (progressed : Nat) (s : State W P G V) (r : State W P G V × Nat)
    (new : List (Resumption W P G V)) : Prop where
  resumed : r.1.resumed = s.resumed ++ new
  inOrder : (new.map (·.ticket)).Sublist (todo.map (·.ticket))
  later : Later s.promises r.1.promises
  progress : progressed ≤ r.2 ∧ r.2 ≤ progressed + new.length
  all : ¬ (r.1.deadlineExceeded ∨ count + r.2 > 10000) → ∀ q ∈ todo, ∀ value reject,
    awaitResumeValue host s.promises q.value q.isReject = .run value reject →
      ∃ x ∈ new, x.ticket = q.ticket ∧ x.value = value ∧ x.reject = reject
  failed : ¬ (r.1.deadlineExceeded ∨ count + r.2 > 10000) → r.2 = progressed →
    ∀ x ∈ new, Failed host x
  quiet : ¬ (r.1.deadlineExceeded ∨ count + r.2 > 10000) → new = [] →
    r.1.promises = s.promises ∧ ∃ left, r.1.pendingAwaits = rest ++ left ∧
      ∀ q ∈ left, Parked host s.promises todo q

omit [DecidableEq P] in
theorem Parked.mono {list list' : List (Await G V)} {q : Await G V}
    (h : Parked host promises list q) (hsub : ∀ e ∈ list, e ∈ list') :
    Parked host promises list' q := by
  rcases h with h | ⟨e, he, hadopt⟩
  · exact .inl h
  · exact .inr ⟨e, hsub e he, hadopt⟩

omit [DecidableEq P] in
theorem Tried.ofCut {progressed' : Nat} {s' : State W P G V}
    (hresumed : s'.resumed = s.resumed ++ new)
    (hinOrder : (new.map (·.ticket)).Sublist (todo.map (·.ticket)))
    (hlater : Later s.promises s'.promises)
    (hprogress : progressed ≤ progressed' ∧ progressed' ≤ progressed + new.length)
    (hcut : s'.deadlineExceeded ∨ count + progressed' > 10000) :
    Tried host count todo rest progressed s (s', progressed') new where
  resumed := hresumed
  inOrder := hinOrder
  later := hlater
  progress := hprogress
  all hgo := absurd hcut hgo
  failed hgo := absurd hcut hgo
  quiet hgo := absurd hcut hgo

omit [DecidableEq P] in
theorem Tried.afterMove {await' : Await G V} {s' : State W P G V} {r : State W P G V × Nat}
    (h : Tried host count todo (rest ++ [await']) progressed s' r new)
    (hresumed : s'.resumed = s.resumed) (hpromises : s'.promises = s.promises)
    (hrun : ∀ value reject,
      awaitResumeValue host s.promises await.value await.isReject ≠ .run value reject)
    (hparked : Parked host s.promises [await] await') :
    Tried host count (await :: todo) rest progressed s r new where
  resumed := by rw [h.resumed, hresumed]
  inOrder := h.inOrder.trans (List.sublist_cons_self _ _)
  later := by rw [← hpromises]; exact h.later
  progress := h.progress
  all hgo q hq value reject hvalue := by
    rcases List.mem_cons.mp hq with rfl | hq
    · exact absurd hvalue (hrun value reject)
    · exact h.all hgo q hq value reject (by rw [hpromises]; exact hvalue)
  failed := h.failed
  quiet hgo hnew := by
    obtain ⟨hsame, left, hleft, hall⟩ := h.quiet hgo hnew
    refine ⟨by rw [hsame, hpromises], await' :: left, by simp [hleft], ?_⟩
    intro q hq
    rcases List.mem_cons.mp hq with rfl | hq
    · exact hparked.mono (by simp)
    · rw [← hpromises]
      exact (hall q hq).mono fun e he => List.mem_cons_of_mem _ he

omit [DecidableEq P] in
theorem Tried.afterResume {added : List (Await G V)} {progressed' : Nat} {s₁ : State W P G V}
    {x : Resumption W P G V} {s' : State W P G V × Bool} {r : State W P G V × Nat}
    (hone : ResumedOne host s₁ x s') (hresumed : s₁.resumed = s.resumed)
    (hpromises : s₁.promises = s.promises)
    (hprogressed : progressed' = if s'.2 = true then progressed + 1 else progressed)
    (hdeadline : ¬ s'.1.deadlineExceeded = true) (hticket : x.ticket = await.ticket)
    (hrun : awaitResumeValue host s.promises await.value await.isReject = .run x.value x.reject)
    (h : Tried host count todo (rest ++ added) progressed' s'.1 r new) :
    Tried host count (await :: todo) rest progressed s r (x :: new) where
  resumed := by rw [h.resumed, hone.resumed, hresumed, List.append_assoc]; rfl
  inOrder := by
    simp only [List.map_cons, hticket]
    exact h.inOrder.cons_cons _
  later := by
    rw [← hpromises]
    exact hone.later.trans h.later
  progress := by
    obtain ⟨hle, hge⟩ := h.progress
    simp only [List.length_cons]
    split at hprogressed <;> omega
  all hgo q hq value reject hvalue := by
    rcases List.mem_cons.mp hq with rfl | hq
    · rw [hrun] at hvalue
      cases hvalue
      exact ⟨x, List.mem_cons_self, hticket, rfl, rfl⟩
    · have hvalue' : awaitResumeValue host s'.1.promises q.value q.isReject = .run value reject := by
        rw [awaitResumeValue_later hone.later (by rw [hpromises, hvalue]; simp), hpromises, hvalue]
      obtain ⟨y, hy, hsame⟩ := h.all hgo q hq value reject hvalue'
      exact ⟨y, List.mem_cons_of_mem _ hy, hsame⟩
  failed hgo hsame := by
    have hle := h.progress.1
    have hflag : s'.2 = false := by
      cases hflag : s'.2 with
      | false => rfl
      | true =>
        rw [hflag, if_pos rfl] at hprogressed
        omega
    intro y hy
    rcases List.mem_cons.mp hy with rfl | hy
    · exact (hone.failed hflag).resolve_left hdeadline
    · refine h.failed hgo ?_ y hy
      simp only [hflag, Bool.false_eq_true, if_false] at hprogressed
      omega
  quiet hgo hnew := by simp at hnew

theorem tryAwaits_tried (host : Host W P G V) (count : Nat) (todo rest : List (Await G V))
    (progressed : Nat) (s : State W P G V) (hlist : s.pendingAwaits = todo ++ rest) :
    ∃ new, Tried host count todo rest progressed s
      (tryAwaits host count todo.length progressed s) new := by
  induction todo generalizing rest progressed s with
  | nil =>
    refine ⟨[], by simp [tryAwaits], by simp, Later.refl _, by simp [tryAwaits], by simp, by simp,
      ?_⟩
    intro _ _
    exact ⟨rfl, [], by simpa [tryAwaits] using hlist, by simp⟩
  | cons await todo ih =>
    rw [List.cons_append] at hlist
    simp only [List.length_cons, tryAwaits]
    by_cases hdeadline : s.deadlineExceeded
    · have htry : resumeNextAwait host s = (s, false) := by
        rw [resumeNextAwait, if_pos hdeadline]
      rw [htry]
      simp only [hdeadline, true_or, if_true]
      exact ⟨[], Tried.ofCut (by simp) (by simp) (Later.refl _) (by simp) (.inl hdeadline)⟩
    · -- The await goes to the back, as it is or adopted.
      have hmove : ∀ await' : Await G V,
          resumeNextAwait host s = ({ s with pendingAwaits := todo ++ rest ++ [await'] }, false) →
          (∀ value reject,
            awaitResumeValue host s.promises await.value await.isReject ≠ .run value reject) →
          Parked host s.promises [await] await' →
          ∃ new, Tried host count (await :: todo) rest progressed s
            (if (resumeNextAwait host s).1.deadlineExceeded = true ∨
                count + (if (resumeNextAwait host s).2 = true then progressed + 1 else progressed) >
                  10000 then
              ((resumeNextAwait host s).1,
                if (resumeNextAwait host s).2 = true then progressed + 1 else progressed)
            else
              tryAwaits host count todo.length
                (if (resumeNextAwait host s).2 = true then progressed + 1 else progressed)
                (resumeNextAwait host s).1) new := by
        intro await' htry hrun hparked
        rw [htry]
        simp only [Bool.false_eq_true, if_false]
        split
        · rename_i hcut
          exact ⟨[], Tried.ofCut (by simp) (by simp) (Later.refl _) (by simp) hcut⟩
        · obtain ⟨new, h⟩ := ih (rest ++ [await']) progressed
            { s with pendingAwaits := todo ++ rest ++ [await'] } (by simp)
          exact ⟨new, h.afterMove rfl rfl hrun hparked⟩
      cases hawait : awaitResumeValue host s.promises await.value await.isReject with
      | skip =>
        refine hmove await ?_ (by simp [hawait]) (.inl hawait)
        simp only [resumeNextAwait, hdeadline, hlist, hawait, Bool.false_eq_true, if_false]
      | adopt payload =>
        refine hmove { await with value := payload, isReject := false } ?_ (by simp [hawait])
          (.inr ⟨await, by simp, rfl, hawait⟩)
        simp only [resumeNextAwait, hdeadline, hlist, hawait, Bool.false_eq_true, if_false]
      | run value reject =>
        have htry : resumeNextAwait host s =
            State.resume host { s with pendingAwaits := todo ++ rest } await value reject := by
          simp only [resumeNextAwait, hdeadline, hlist, hawait, Bool.false_eq_true, if_false]
        have hone := resume_spec host { s with pendingAwaits := todo ++ rest } await value reject
        rw [htry]
        generalize State.resume host { s with pendingAwaits := todo ++ rest } await value reject = r
          at hone
        obtain ⟨added, hadded⟩ := hone.awaits
        generalize hprogressed : (if r.2 = true then progressed + 1 else progressed) = progressed'
        split
        · rename_i hcut
          refine ⟨_, Tried.ofCut hone.resumed (by simp) hone.later ?_ hcut⟩
          simp only [List.length_singleton]
          split at hprogressed <;> omega
        · rename_i hgo
          obtain ⟨new, h⟩ := ih (rest ++ added) progressed' r.1 (by rw [hadded, List.append_assoc])
          exact ⟨_, h.afterResume hone rfl rfl hprogressed.symm (fun hd => hgo (.inl hd)) rfl hawait⟩

/-! ## §4 The drain -/

/-- A pass: it resumes some of the awaits the list held when it began, in the list's order. -/
structure Pass (host : Host W P G V) (s s' : State W P G V) (new : List (Resumption W P G V)) :
    Prop where
  resumed : s'.resumed = s.resumed ++ new
  inOrder : (new.map (·.ticket)).Sublist (s.pendingAwaits.map (·.ticket))

/-- A pass that was not cut short: it resumes every await that was settled when it began. -/
structure FullPass (host : Host W P G V) (s s' : State W P G V)
    (new : List (Resumption W P G V)) : Prop extends Pass host s s' new where
  all : ∀ q ∈ s.pendingAwaits, ∀ value reject,
    awaitResumeValue host s.promises q.value q.isReject = .run value reject →
      ∃ x ∈ new, x.ticket = q.ticket ∧ x.value = value ∧ x.reject = reject

/-- How the drain ends: with an empty list, cut short by the deadline or after more than
10,000 resumptions, or with a pass in which no resumption succeeded; when that pass
resumed nothing, every await left is parked. -/
inductive Ended (host : Host W P G V) (s : State W P G V) : State W P G V → Prop
  | empty (hempty : s.pendingAwaits = []) : Ended host s s
  | cut {s' : State W P G V} {new : List (Resumption W P G V)} (hpass : Pass host s s' new)
      (hcut : s'.deadlineExceeded ∨ 10000 < s'.resumed.length) : Ended host s s'
  | stalled {s' : State W P G V} {new : List (Resumption W P G V)}
      (hpass : FullPass host s s' new) (hfailed : ∀ x ∈ new, Failed host x)
      (hquiet : new = [] →
        ∀ q ∈ s'.pendingAwaits, Parked host s'.promises s.pendingAwaits q) : Ended host s s'

def Passes (host : Host W P G V) (s s' : State W P G V) : Prop :=
  ∃ t, ReflTransGen (fun t t' => ∃ new, FullPass host t t' new) s t ∧ Ended host t s'

theorem runJobs_passes (host : Host W P G V) (count : Nat) (s : State W P G V)
    (hcount : count ≤ s.resumed.length) : Passes host s (runJobs host count s).1 := by
  induction count, s using runJobs.induct host with
  | case1 count s hempty =>
    rw [runJobs, if_pos hempty]
    exact ⟨s, .refl, .empty (List.isEmpty_iff.mp hempty)⟩
  | case2 count s hempty r hstop =>
    rw [runJobs, if_neg hempty]
    simp only
    rw [if_pos hstop]
    obtain ⟨new, h⟩ := tryAwaits_tried host count s.pendingAwaits [] 0 s (by simp)
    refine ⟨s, .refl, ?_⟩
    have hlength : r.1.resumed.length = s.resumed.length + new.length := by
      simp only [r, h.resumed, List.length_append]
    have hnew := h.progress.2
    by_cases hcut : r.1.deadlineExceeded = true ∨ count + r.2 > 10000
    · refine .cut ⟨h.resumed, h.inOrder⟩ (hcut.imp_right fun hmany => ?_)
      simp only [r] at hmany hlength
      change 10000 < (tryAwaits host count s.pendingAwaits.length 0 s).1.resumed.length
      omega
    · refine .stalled ⟨⟨h.resumed, h.inOrder⟩, h.all hcut⟩
        (h.failed hcut (hstop.resolve_right hcut)) fun hnone => ?_
      obtain ⟨hsame, left, hleft, hparked⟩ := h.quiet hcut hnone
      intro q hq
      rw [hsame]
      rw [hleft] at hq
      exact hparked q hq
  | case3 count s hempty r hgo ih =>
    rw [runJobs, if_neg hempty]
    simp only
    rw [if_neg hgo]
    obtain ⟨new, h⟩ := tryAwaits_tried host count s.pendingAwaits [] 0 s (by simp)
    have hnew := h.progress.2
    have hcut : ¬ (r.1.deadlineExceeded = true ∨ count + r.2 > 10000) := (not_or.mp hgo).2
    have hlength : r.1.resumed.length = s.resumed.length + new.length := by
      simp only [r, h.resumed, List.length_append]
    obtain ⟨t, hrun, hended⟩ := ih (by simp only [r] at hlength ⊢; omega)
    exact ⟨t, .head ⟨new, ⟨h.resumed, h.inOrder⟩, h.all hcut⟩ hrun, hended⟩

omit [DecidableEq P] in
theorem start_accounted (host : Host W P G V) (world : W) (promises : P → PromiseState V)
    (deadline : Bool) (settlements : List (P × V × Bool)) (awaits : List (G × V × Bool)) :
    Accounted host (State.start world promises deadline settlements awaits) :=
  Accounted.append ⟨by simp, by simp, by simp⟩ awaits

/-- **What a drain does**: every await that was in the list or entered it is resumed once,
with the settlement of its promise, which had settled, or is still in the list; the
resumptions go in passes over the list, in its order. -/
theorem runJobs_drains (host : Host W P G V) (world : W) (promises : P → PromiseState V)
    (deadline : Bool) (settlements : List (P × V × Bool)) (awaits : List (G × V × Bool)) :
    Accounted host (runJobs host 0 (State.start world promises deadline settlements awaits)).1 ∧
      Passes host (State.start world promises deadline settlements awaits)
        (runJobs host 0 (State.start world promises deadline settlements awaits)).1 :=
  ⟨runJobs_accounted 0 (start_accounted host world promises deadline settlements awaits),
    runJobs_passes host 0 _ (Nat.zero_le _)⟩

def Ready (host : Host W P G V) (promises : P → PromiseState V) (e : Await G V) : Prop :=
  ∃ v value reject, ReflTransGen (Adopts host promises) e.value v ∧
    awaitResumeValue host promises v e.isReject = .run value reject

/-- Of two awaits in the list, the one that was ready at a time when the other was not is
resumed first. -/
def InReadyOrder (host : Host W P G V) (s s' : State W P G V) : Prop :=
  ∀ r ∈ s'.resumed, ∀ a ∈ s.pendingAwaits, ∀ b ∈ s.pendingAwaits,
    Ready host r.promises a → ¬ Ready host r.promises b →
      ∀ i j : Nat, (s'.resumed.map (·.ticket))[i]? = some a.ticket →
        (s'.resumed.map (·.ticket))[j]? = some b.ticket → i < j

/-- Values from 100 on are promises; the first body settles promise 102, the second 101. -/
def crossing : Host Unit Nat Nat Nat where
  asPromise v := if 100 ≤ v then some v else none
  resume _ _ gen _ _ :=
    ⟨(), if gen = 0 then [(102, .fulfilled 7)] else if gen = 1 then [(101, .fulfilled 8)] else [],
      [], [], false, none⟩
  completion _ _ := none

/-- Two bodies ready to run, and two awaits of promises these settle in the other order. -/
def crossingAwaits : State Unit Nat Nat Nat :=
  State.start () (fun _ => .pending) false []
    [(0, 1, false), (1, 1, false), (2, 101, false), (3, 102, false)]

omit [DecidableEq P] in
theorem not_ready_of_pending {e : Await G V} {p : P} (hreject : e.isReject = false)
    (hp : host.asPromise e.value = some p) (hpending : promises p = .pending) :
    ¬ Ready host promises e := by
  rintro ⟨v, value, reject, hchain, hrun⟩
  rcases ReflTransGen.cases_head hchain with rfl | ⟨c, ⟨p', hp', hfulfilled, -⟩, -⟩
  · simp [awaitResumeValue, hreject, hp, hpending] at hrun
  · obtain rfl : p = p' := Option.some.inj (hp.symm.trans hp')
    rw [hpending] at hfulfilled
    cases hfulfilled

/-- The await whose promise settled second is resumed first: the list's order decides. -/
theorem not_inReadyOrder :
    ¬ ∀ (host : Host Unit Nat Nat Nat) (s : State Unit Nat Nat Nat),
      InReadyOrder host s (runJobs host 0 s).1 := by
  intro h
  have hrun : (runJobs crossing 0 crossingAwaits).1 =
      (tryAwaits crossing 0 4 0 crossingAwaits).1 := by
    rw [runJobs, if_neg (by decide)]
    simp only
    rw [if_neg (by decide), runJobs, if_pos (by decide)]
    rfl
  have horder := h crossing crossingAwaits
  rw [hrun] at horder
  -- When the second body is resumed, promise 102 has settled and 101 has not.
  let r := (tryAwaits crossing 0 4 0 crossingAwaits).1.resumed.get ⟨1, by decide⟩
  have hready : Ready crossing r.promises ⟨3, 3, 102, false⟩ :=
    ⟨102, 7, false, .refl, by decide⟩
  have hnot : ¬ Ready crossing r.promises ⟨2, 2, 101, false⟩ :=
    not_ready_of_pending rfl (p := 101) rfl (by decide)
  have hlt := horder r (List.get_mem _ _) ⟨3, 3, 102, false⟩ (by decide) ⟨2, 2, 101, false⟩
    (by decide) hready hnot 3 2 (by decide) (by decide)
  omega

end V12.Awaits
