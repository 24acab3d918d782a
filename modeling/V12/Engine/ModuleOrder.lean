/-
V12.Engine.ModuleOrder — in which order modules of a graph run.

§1 is about the stack under each kind of move. §2 is the invariant of the loader's records, §3 says
that a body runs only once its module is linked, and §4 that what a walk has passed is linked or
waits for its link in a load that is still active. §5 puts them together: what holds of a module's
imports, deferred or not, at the moment its body starts.
-/
import V12.Engine.ModuleCalls

namespace V12.ModuleLoader

open V12.ModulePlan V12.ModuleNamespace

variable {P S V : Type}

/-! ## §1 The stack -/

namespace Frame

def resumed : Frame P S → Frame P S
  | eager path module namespaceId (_ :: todo) => eager path module namespaceId todo
  | deferred path module (_ :: todo) => deferred path module todo
  | targets path (_ :: todo) => targets path todo
  | f => f

theorem resumed_same (f : Frame P S) :
    f.resumed.path = f.path ∧ f.resumed.loads = f.loads ∧ f.resumed.owns = f.owns ∧
      f.resumed.isDeferred = f.isDeferred ∧ f.resumed.namespaceId = f.namespaceId ∧
      f.resumed.removes = f.removes := by
  cases f with
  | eager path module namespaceId todo => cases todo <;> exact ⟨rfl, rfl, rfl, rfl, rfl, rfl⟩
  | deferred path module todo => cases todo <;> exact ⟨rfl, rfl, rfl, rfl, rfl, rfl⟩
  | targets path todo => cases todo <;> exact ⟨rfl, rfl, rfl, rfl, rfl, rfl⟩
  | _ => exact ⟨rfl, rfl, rfl, rfl, rfl, rfl⟩

theorem not_removes {stack : List (Frame P S)} {path : P} (h : ∀ f ∈ stack, f.owns ≠ some path) :
    path ∉ stack.filterMap removes := by
  intro hmem
  obtain ⟨f, hf, hremoves⟩ := List.mem_filterMap.mp hmem
  refine h f hf ?_
  cases f with
  | eager => exact hremoves
  | deferred => exact hremoves
  | _ => cases hremoves

theorem namespaceId_of_loads {f : Frame P S} {path : P} (h : f.loads = some path) :
    ∃ id, f.namespaceId = some id := by
  cases f with
  | eager p module id todo => exact ⟨id, rfl⟩
  | body p module id => exact ⟨id, rfl⟩
  | _ => cases h

end Frame

theorem resume_cons (f : Frame P S) (rest : List (Frame P S)) :
    resume (f :: rest) = f.resumed :: rest := by
  cases f with
  | eager path module namespaceId todo => cases todo <;> rfl
  | deferred path module todo => cases todo <;> rfl
  | targets path todo => cases todo <;> rfl
  | _ => rfl

theorem loads_resume (stack : List (Frame P S)) :
    (resume stack).filterMap Frame.loads = stack.filterMap Frame.loads := by
  cases stack with
  | nil => rfl
  | cons f rest =>
    rw [resume_cons, List.filterMap_cons, List.filterMap_cons, f.resumed_same.2.1]

theorem abandoned_append (stack : List (Frame P S)) :
    Frame.abandoned stack ++ stack.dropWhile (fun f => !f.isCode) = stack :=
  List.takeWhile_append_dropWhile

theorem refusals_not_given {e : Failure S V} {deferred : Bool} {env : Option Nat} {path : P}
    {stack : List (Frame P S)} :
    .given path deferred namespaceId env ∉ stack.map (Frame.refusal e) := by
  intro hmem
  obtain ⟨f, -, hf⟩ := List.mem_map.mp hmem
  cases hf

theorem body_mem_resume {stack : List (Frame P S)} {path : P} {module : Module S}
    {namespaceId : Nat} (h : .body path module namespaceId ∈ resume stack) :
    .body path module namespaceId ∈ stack := by
  cases stack with
  | nil => exact h
  | cons top rest =>
    rw [resume_cons] at h
    rcases List.mem_cons.mp h with heq | hmem
    · refine List.mem_cons.mpr (.inl ?_)
      cases top with
      | body => exact heq
      | gather => cases heq
      | eager p m id todo => cases todo <;> cases heq
      | deferred p m todo => cases todo <;> cases heq
      | targets p todo => cases todo <;> cases heq
    · exact List.mem_cons_of_mem _ hmem

theorem removes_resume (stack : List (Frame P S)) :
    (resume stack).filterMap Frame.removes = stack.filterMap Frame.removes := by
  cases stack with
  | nil => rfl
  | cons f rest =>
    rw [resume_cons, List.filterMap_cons, List.filterMap_cons, f.resumed_same.2.2.2.2.2]

theorem mem_log_append {s s' : State P S V} {events : List (Event P S V)}
    (hlog : s'.log = s.log ++ events) : ∀ event ∈ s.log, event ∈ s'.log := by
  intro event hevent
  rw [hlog]
  exact List.mem_append_left _ hevent

variable [DecidableEq P] [DecidableEq S]
variable {graph : Graph P S} {s s' : State P S V} {dropped stack rest : List (Frame P S)} {path : P}
  {events : List (Event P S V)} {namespaceId : Nat} {label : Label P V}

theorem Inv.owns_disjoint (h : Inv graph s) {kept : List (Frame P S)}
    (hstack : s.stack = dropped ++ kept) (hkept : path ∈ kept.filterMap Frame.loads) {g : Frame P S}
    (hg : g ∈ dropped) :
    g.owns ≠ some path := by
  intro howns
  have hnodup := h.nodup
  rw [h.loading, hstack, List.filterMap_append, List.nodup_append] at hnodup
  obtain ⟨above, below, hdropped⟩ := List.append_of_mem hg
  have hgood := h.good above g (below ++ kept) (by rw [hstack, hdropped]; simp)
  have hloads : ∀ p, g.loads = some p → p ≠ path := by
    rintro p hp rfl
    exact hnodup.2.2 p (List.mem_filterMap.mpr ⟨g, hg, hp⟩) p hkept rfl
  cases g with
  | eager p module namespaceId todo =>
    obtain rfl := Option.some.inj howns
    exact hloads p rfl rfl
  | body p module namespaceId =>
    obtain rfl := Option.some.inj howns
    exact hloads p rfl rfl
  | deferred p module todo =>
    obtain rfl := Option.some.inj howns
    refine hgood.guard p rfl rfl ?_
    rw [List.filterMap_append]
    exact List.mem_append_right _ hkept
  | _ => cases howns

theorem Inv.good_drop (h : Inv graph s) {kept : List (Frame P S)}
    (hstack : s.stack = dropped ++ kept)
    (hrecord : ∀ p, (∀ g ∈ dropped, g.owns ≠ some p) → s'.record p = s.record p)
    (hlog : ∀ event ∈ s.log, event ∈ s'.log) :
    ∀ above f below, kept = above ++ f :: below → Good graph s' above f below := by
  intro above f below hkept
  refine (h.good (dropped ++ above) f below (by rw [hstack, hkept, List.append_assoc])).mono
    ?_ hlog ?_
  · intro path hloads r hr hfresh heager
    refine ⟨r, ?_, hfresh, heager⟩
    rw [hrecord path fun g hg => h.owns_disjoint hstack ?_ hg]
    · exact hr
    · rw [hkept]
      exact List.mem_filterMap.mpr ⟨f, by simp, hloads⟩
  · intro child r hr hsettled howns
    refine ⟨r, ?_, hsettled, fun g hg => howns g (List.mem_append_right _ hg)⟩
    rw [hrecord child fun g hg => howns g (List.mem_append_left _ hg)]
    exact hr

theorem good_resume {deferred : Bool}
    (hgood : ∀ above f below, stack = above ++ f :: below → Good graph s above f below)
    (hawaits : Awaits graph stack path deferred)
    (hgiven : ∃ deferred namespaceId env, .given path deferred namespaceId env ∈ s.log)
    (htaken : deferred = false → Taken s [] stack path) :
    ∀ above f below, resume stack = above ++ f :: below → Good graph s above f below := by
  intro above f below hsplit
  cases stack with
  | nil => cases above <;> cases hsplit
  | cons top rest =>
    rw [resume_cons] at hsplit
    obtain ⟨hpath, hloads, howns, hdeferred, hid, hremoves⟩ := top.resumed_same
    cases above with
    | cons top' above =>
      obtain ⟨rfl, hrest⟩ := List.cons.inj hsplit
      refine (hgood (top :: above) f below (by rw [hrest]; rfl)).mono
        (fun _ _ r hr hfresh heager => ⟨r, hr, hfresh, heager⟩) (fun _ h => h) ?_
      intro child r hr hsettled hall
      refine ⟨r, hr, hsettled, fun g hg => ?_⟩
      rcases List.mem_cons.mp hg with rfl | hg
      · rw [howns]
        exact hall top (by simp)
      · exact hall g (List.mem_cons_of_mem _ hg)
    | nil =>
      obtain ⟨rfl, rfl⟩ := List.cons.inj hsplit
      have htop := hgood [] top rest rfl
      -- Only a loop with a request left has moved.
      cases top with
      | body p module namespaceId => exact htop
      | gather p pending seen targets => exact hawaits.elim
      | targets p todo =>
        cases todo with
        | nil => exact hawaits.elim
        | cons target todo =>
          exact ⟨nofun, nofun, nofun, htop.awaits, nofun⟩
      | eager p module namespaceId todo =>
        cases todo with
        | nil => exact hawaits.elim
        | cons r todo =>
          obtain ⟨specifier, phase⟩ := r
          obtain ⟨rfl, rfl⟩ := hawaits
          refine ⟨fun m t hloop => ?_, htop.active, nofun, htop.awaits, fun m t hloop => ?_⟩
          · obtain ⟨rfl, rfl⟩ := Prod.mk.inj (Option.some.inj hloop)
            exact htop.read module ((specifier, deferred) :: todo) rfl
          · obtain ⟨rfl, rfl⟩ := Prod.mk.inj (Option.some.inj hloop)
            obtain ⟨taken, heq, hall⟩ := htop.taken module ((specifier, deferred) :: todo) rfl
            refine ⟨taken ++ [(specifier, deferred)], by rw [heq]; simp, fun r hr => ?_⟩
            rcases List.mem_append.mp hr with hr | hr
            · exact hall r hr
            · obtain rfl := List.mem_singleton.mp hr
              exact ⟨hgiven, fun hphase _ => htaken hphase⟩
      | deferred p module todo =>
        cases todo with
        | nil => exact hawaits.elim
        | cons r todo =>
          obtain ⟨specifier, phase⟩ := r
          obtain ⟨rfl, rfl⟩ := hawaits
          refine ⟨fun m t hloop => ?_, nofun, htop.guard, htop.awaits, fun m t hloop => ?_⟩
          · obtain ⟨rfl, rfl⟩ := Prod.mk.inj (Option.some.inj hloop)
            exact htop.read module ((specifier, phase) :: todo) rfl
          · obtain ⟨rfl, rfl⟩ := Prod.mk.inj (Option.some.inj hloop)
            obtain ⟨taken, heq, hall⟩ := htop.taken module ((specifier, phase) :: todo) rfl
            refine ⟨taken ++ [(specifier, phase)], by rw [heq]; simp, fun r hr => ?_⟩
            rcases List.mem_append.mp hr with hr | hr
            · exact hall r hr
            · obtain rfl := List.mem_singleton.mp hr
              exact ⟨hgiven, nofun⟩

theorem Inv.good_push (h : Inv graph s) {f : Frame P S} {r : LinkedModule S V} (hfresh : r.Fresh)
    (howns : ∀ p, f.owns = some p → p = path) (hunloaded : path ∉ s.loading)
    (hold : ∀ r₀, s.record path = some r₀ → r₀.Gains r)
    (hrecord : ∀ p, s'.record p = if p = path then some r else s.record p) (hlog : s'.log = s.log)
    (hnew : Good graph s' [] f s.stack) :
    ∀ above g below, f :: s.stack = above ++ g :: below → Good graph s' above g below := by
  intro above g below hsplit
  cases above with
  | nil =>
    obtain ⟨rfl, rfl⟩ := List.cons.inj hsplit
    exact hnew
  | cons top above =>
    obtain ⟨rfl, hstack⟩ := List.cons.inj hsplit
    refine (h.good above g below hstack).mono ?_ (fun _ hevent => hlog ▸ hevent) ?_
    · intro p hloads r₀ hr₀ hfresh₀ heager
      have hp : p ≠ path := by
        rintro rfl
        refine hunloaded ?_
        rw [h.loading, hstack]
        exact List.mem_filterMap.mpr ⟨g, by simp, hloads⟩
      exact ⟨r₀, by rw [hrecord, if_neg hp, hr₀], hfresh₀, heager⟩
    · intro child r₀ hr₀ hsettled hall
      have hchild : child ≠ path := by
        rintro rfl
        have hgains := hold r₀ hr₀
        rcases hsettled with hevaluated | hpending
        · rw [← hgains.evaluated, hfresh.evaluated] at hevaluated
          cases hevaluated
        · rw [← hgains.tlaPending, hfresh.tlaPending] at hpending
          cases hpending
      refine ⟨r₀, by rw [hrecord, if_neg hchild, hr₀], hsettled, fun g hg => ?_⟩
      rcases List.mem_cons.mp hg with rfl | hg
      · exact fun hp => hchild (howns child hp)
      · exact hall g hg

theorem Inv.good_replace (h : Inv graph s) {f f' : Frame P S} (hstack : s.stack = f :: rest)
    (howns : ∀ p, f'.owns = some p → f.owns = some p) (hrecord : s'.record = s.record)
    (hlog : ∀ event ∈ s.log, event ∈ s'.log) (hnew : Good graph s' [] f' rest) :
    ∀ above g below, f' :: rest = above ++ g :: below → Good graph s' above g below := by
  intro above g below hsplit
  cases above with
  | nil =>
    obtain ⟨rfl, rfl⟩ := List.cons.inj hsplit
    exact hnew
  | cons top above =>
    obtain ⟨rfl, hrest⟩ := List.cons.inj hsplit
    refine (h.good (f :: above) g below (by rw [hstack, hrest]; rfl)).mono ?_ hlog ?_
    · exact fun p _ r hr hfresh heager => ⟨r, by rw [hrecord]; exact hr, hfresh, heager⟩
    · intro child r hr hsettled hall
      refine ⟨r, by rw [hrecord]; exact hr, hsettled, fun g hg => ?_⟩
      rcases List.mem_cons.mp hg with rfl | hg
      · exact fun hp => hall f (by simp) (howns child hp)
      · exact hall g (List.mem_cons_of_mem _ hg)

/-! ## §2 The invariant -/

def LinkedModule.Logged (r : LinkedModule S V) (p : P) (log : List (Event P S V)) : Prop :=
  (r.Settled ∨ r.cachedError ≠ none → r.eagerNamespace ≠ none) ∧
    (r.evaluated = true → .completed p ∈ log) ∧ (r.tlaPending = true → .suspended p ∈ log) ∧
    ∀ e, r.cachedError = some e → .threw p e ∈ log

omit [DecidableEq P] [DecidableEq S] in
theorem LinkedModule.Fresh.logged {r : LinkedModule S V} (hfresh : r.Fresh) :
    r.Logged path events := by
  refine ⟨fun hstatus => ?_, fun he => ?_, fun hp => ?_, fun e he => ?_⟩
  · rcases hstatus with (he | hp) | hc
    · cases hfresh.evaluated.symm.trans he
    · cases hfresh.tlaPending.symm.trans hp
    · exact absurd hfresh.cachedError hc
  · cases hfresh.evaluated.symm.trans he
  · cases hfresh.tlaPending.symm.trans hp
  · cases hfresh.cachedError.symm.trans he

theorem Inv.logged (h : Inv graph s) (hlog : s'.log = s.log ++ events) {r : LinkedModule S V}
    (hr : s.record path = some r) : r.Logged path s'.log := by
  have hkept := mem_log_append hlog
  obtain ⟨heager, hevaluated, hpending, hcached⟩ := h.status path r hr
  exact ⟨heager, fun he => hkept _ (hevaluated he), fun hp => hkept _ (hpending hp),
    fun e he => hkept _ (hcached e he)⟩

theorem Inv.givenRead_append (h : Inv graph s) (hlog : s'.log = s.log ++ events)
    (hnew : ∀ path deferred namespaceId env, .given path deferred namespaceId env ∈ events →
      ∃ module, graph.read path = .ok module) :
    ∀ path deferred namespaceId env, .given path deferred namespaceId env ∈ s'.log →
      ∃ module, graph.read path = .ok module := by
  intro path deferred namespaceId env hgiven
  rw [hlog] at hgiven
  rcases List.mem_append.mp hgiven with hgiven | hgiven
  · exact h.givenRead path deferred namespaceId env hgiven
  · exact hnew path deferred namespaceId env hgiven

theorem Inv.kept (h : Inv graph s) (hrecord : s'.record = s.record)
    (hloading : s'.loading = s.loading) (hlog : s'.log = s.log ++ events)
    (hnew : ∀ path deferred namespaceId env, .given path deferred namespaceId env ∉ events)
    (hloads : s'.stack.filterMap Frame.loads = s.stack.filterMap Frame.loads)
    (hgood : ∀ above f below, s'.stack = above ++ f :: below → Good graph s' above f below) :
    Inv graph s' := by
  refine ⟨?_, ?_, ?_, ?_, ?_, hgood⟩
  · rw [hloading, hloads, h.loading]
  · rw [hloading]
    exact h.nodup
  · rw [hrecord]
    exact h.read
  · rw [hrecord]
    exact fun path r hr => h.logged hlog hr
  · exact h.givenRead_append hlog fun _ _ _ _ hgiven => absurd hgiven (hnew _ _ _ _)

theorem Inv.same (h : Inv graph s) (hrecord : s'.record = s.record)
    (hloading : s'.loading = s.loading) (hstack : s'.stack = s.stack)
    (hlog : s'.log = s.log ++ events)
    (hnew : ∀ path deferred namespaceId env, .given path deferred namespaceId env ∉ events) :
    Inv graph s' := by
  refine h.kept hrecord hloading hlog hnew (by rw [hstack]) ?_
  rw [hstack]
  have hnone : s.stack = [] ++ s.stack := rfl
  exact h.good_drop hnone (fun p _ => by rw [hrecord]) (mem_log_append hlog)

theorem Inv.answer (h : Inv graph s) {deferred : Bool} {r' : LinkedModule S V}
    (hanswers : Move.Answers graph s s' path deferred namespaceId r') : Inv graph s' := by
  obtain ⟨hawaits, hnone, hgains, hloading, hstack, hlog, hr', -, heager⟩ := hanswers
  have hkept := mem_log_append hlog
  have hback : ∀ p r', s'.record p = some r' → ∃ r, s.record p = some r ∧ r.Gains r' := by
    intro p r' hr'
    cases hr : s.record p with
    | none =>
      rw [hnone p hr] at hr'
      cases hr'
    | some r =>
      obtain ⟨r₁, hr₁, hgain⟩ := hgains p r hr
      rw [hr'] at hr₁
      obtain rfl := Option.some.inj hr₁
      exact ⟨r, rfl, hgain⟩
  refine ⟨?_, ?_, ?_, ?_, ?_, ?_⟩
  · rw [hloading, hstack, loads_resume, h.loading]
  · rw [hloading]
    exact h.nodup
  · intro p r hr
    obtain ⟨r₀, hr₀, -⟩ := hback p r hr
    exact h.read p r₀ hr₀
  · intro p r hr
    obtain ⟨r₀, hr₀, hgain⟩ := hback p r hr
    obtain ⟨hnamespace, hevaluated, hpending, hcached⟩ := h.logged hlog hr₀
    refine ⟨fun hstatus => ?_, fun he => hevaluated (hgain.evaluated ▸ he),
      fun hp => hpending (hgain.tlaPending ▸ hp), fun e he => hcached e (hgain.cachedError ▸ he)⟩
    have hold : r₀.Settled ∨ r₀.cachedError ≠ none := by
      rw [← hgain.cachedError]
      refine hstatus.imp_left fun hsettled => ?_
      simp only [LinkedModule.Settled, hgain.evaluated, hgain.tlaPending] at hsettled
      exact hsettled
    obtain ⟨id, hid⟩ := Option.ne_none_iff_exists'.mp (hnamespace hold)
    have hsame : r.eagerNamespace = some id := hgain.namespaces false id hid
    simp [hsame]
  · refine h.givenRead_append hlog fun p d id env hgiven => ?_
    obtain ⟨rfl, -⟩ := Event.given.inj (List.mem_singleton.mp hgiven)
    obtain ⟨r₀, hr₀, -⟩ := hback p r' hr'
    exact h.read p r₀ hr₀
  · have hgood : ∀ above f below, s.stack = above ++ f :: below → Good graph s' above f below := by
      intro above f below hsplit
      refine (h.good above f below hsplit).mono ?_ hkept ?_
      · intro p hloads r hr hfresh hid
        obtain ⟨r₁, hr₁, hgain⟩ := hgains p r hr
        refine ⟨r₁, hr₁, ⟨?_, ?_, ?_⟩, ?_⟩
        · rw [hgain.evaluated, hfresh.evaluated]
        · rw [hgain.tlaPending, hfresh.tlaPending]
        · rw [hgain.cachedError, hfresh.cachedError]
        · obtain ⟨id, hnamespace⟩ := Frame.namespaceId_of_loads hloads
          rw [hnamespace] at hid ⊢
          exact hgain.namespaces false id hid
      · intro child r hr hsettled howns
        obtain ⟨r₁, hr₁, hgain⟩ := hgains child r hr
        refine ⟨r₁, hr₁, ?_, howns⟩
        simp only [LinkedModule.Settled, hgain.evaluated, hgain.tlaPending]
        exact hsettled
    rw [hstack]
    have hgiven : .given path deferred namespaceId (some r'.env) ∈ s'.log := by
      rw [hlog]
      simp
    refine good_resume hgood hawaits ⟨_, _, _, hgiven⟩ fun hdeferred => ?_
    rcases (heager hdeferred).2 with hsettled | hload
    · exact .inl ⟨r', hr', hsettled, nofun⟩
    · rw [h.loading] at hload
      exact .inr hload

theorem Inv.push (h : Inv graph s) {f : Frame P S} {module : Module S} {r : LinkedModule S V}
    (hstack : s'.stack = f :: s.stack) (hread : graph.read path = .ok module) (hfresh : r.Fresh)
    (hrecord : ∀ p, s'.record p = if p = path then some r else s.record p)
    (hloading : s'.loading = f.loads.toList ++ s.loading) (hunloaded : path ∉ s.loading)
    (hloads : ∀ p, f.loads = some p → p = path) (hlog : s'.log = s.log)
    (hgood : ∀ above g below, f :: s.stack = above ++ g :: below → Good graph s' above g below) :
    Inv graph s' := by
  refine ⟨?_, ?_, ?_, ?_, ?_, by rw [hstack]; exact hgood⟩
  · rw [hloading, hstack, List.filterMap_cons, h.loading]
    cases f.loads <;> rfl
  · rw [hloading]
    cases hf : f.loads with
    | none => exact h.nodup
    | some p =>
      obtain rfl := hloads p hf
      exact List.nodup_cons.mpr ⟨hunloaded, h.nodup⟩
  · intro p r₀ hr₀
    by_cases hp : p = path
    · rw [hp]
      exact ⟨module, hread⟩
    · rw [hrecord, if_neg hp] at hr₀
      exact h.read p r₀ hr₀
  · intro p r₀ hr₀
    rw [hlog]
    by_cases hp : p = path
    · rw [hrecord, if_pos hp] at hr₀
      obtain rfl := Option.some.inj hr₀
      exact hfresh.logged
    · rw [hrecord, if_neg hp] at hr₀
      exact h.status p r₀ hr₀
  · rw [hlog]
    exact h.givenRead

theorem Inv.replace (h : Inv graph s) {f f' : Frame P S} (htop : s.stack = f :: rest)
    (hstack : s'.stack = f' :: rest) (hloads : f'.loads = f.loads)
    (howns : ∀ p, f'.owns = some p → f.owns = some p) (hrecord : s'.record = s.record)
    (hloading : s'.loading = s.loading) (hlog : s'.log = s.log ++ events)
    (hnew : ∀ path deferred namespaceId env, .given path deferred namespaceId env ∉ events)
    (hgood : Good graph s' [] f' rest) : Inv graph s' := by
  refine h.kept hrecord hloading hlog hnew ?_ ?_
  · rw [hstack, htop, List.filterMap_cons, List.filterMap_cons, hloads]
  · rw [hstack]
    exact h.good_replace htop howns hrecord (mem_log_append hlog) hgood

theorem Inv.unwound (h : Inv graph s) (hstack : s.stack = dropped ++ s'.stack)
    (hrecord : ∀ p, (∀ g ∈ dropped, g.owns ≠ some p) → s'.record p = s.record p)
    (hstatus : ∀ p r', s'.record p = some r' → (∃ r, s.record p = some r) ∧
      r'.Logged p s'.log)
    (hloading : s'.loading = s.loading.filter fun p => p ∉ dropped.filterMap Frame.loads)
    (hlog : s'.log = s.log ++ events)
    (hnew : ∀ path deferred namespaceId env, .given path deferred namespaceId env ∉ events) :
    Inv graph s' := by
  have hkept := mem_log_append hlog
  have hnodup := h.nodup
  rw [h.loading, hstack, List.filterMap_append] at hnodup
  obtain ⟨-, hnodup', hdisjoint⟩ := List.nodup_append.mp hnodup
  have hloading' : s'.loading = s'.stack.filterMap Frame.loads := by
    rw [hloading, h.loading, hstack, List.filterMap_append, List.filter_append]
    have hgone : (dropped.filterMap Frame.loads).filter
        (fun p => p ∉ dropped.filterMap Frame.loads) = [] := by
      rw [List.filter_eq_nil_iff]
      intro p hp
      simpa using hp
    have hstay : (s'.stack.filterMap Frame.loads).filter
        (fun p => p ∉ dropped.filterMap Frame.loads) = s'.stack.filterMap Frame.loads := by
      rw [List.filter_eq_self]
      intro p hp
      have hnot : p ∉ dropped.filterMap Frame.loads := fun hmem => hdisjoint p hmem p hp rfl
      exact decide_eq_true hnot
    rw [hgone, hstay, List.nil_append]
  refine ⟨hloading', ?_, ?_, ?_, ?_, h.good_drop hstack hrecord hkept⟩
  · rw [hloading']
    exact hnodup'
  · intro p r' hr'
    obtain ⟨⟨r, hr⟩, -⟩ := hstatus p r' hr'
    exact h.read p r hr
  · intro p r' hr'
    exact (hstatus p r' hr').2
  · exact h.givenRead_append hlog fun _ _ _ _ hgiven => absurd hgiven (hnew _ _ _ _)

theorem Inv.popped (h : Inv graph s) {f : Frame P S} {env : Option Nat} (htop : s.stack = f :: rest)
    (hpath : f.path = path) (hrecord : ∀ p, f.owns ≠ some p → s'.record p = s.record p)
    (hback : ∀ p r', s'.record p = some r' → (∃ r, s.record p = some r) ∧
      r'.Logged p s'.log)
    (hloading : s'.loading = s.loading.filter fun p => f.loads ≠ some p)
    (hstack : s'.stack = resume rest) {event : List (Event P S V)}
    (hlog : s'.log = s.log ++ event ++ [.given path f.isDeferred namespaceId env])
    (hevent : ∀ path deferred namespaceId env, .given path deferred namespaceId env ∉ event)
    (hread : ∃ module, graph.read path = .ok module)
    (hsettled : f.isDeferred = false → ∃ r, s'.record path = some r ∧ r.Settled) :
    Inv graph s' := by
  have hlog' : s'.log = s.log ++ (event ++ [.given path f.isDeferred namespaceId env]) := by
    rw [hlog, List.append_assoc]
  have hkept := mem_log_append hlog'
  have htop' : s.stack = [f] ++ rest := htop
  have hgood := h.good_drop htop' (fun p hp => hrecord p (hp f (by simp))) hkept
  have hnodup := h.nodup
  rw [h.loading, htop, List.filterMap_cons] at hnodup
  have hloading' : s'.loading = rest.filterMap Frame.loads := by
    rw [hloading, h.loading, htop, List.filterMap_cons]
    cases hloads : f.loads with
    | none => simp
    | some p =>
      rw [hloads] at hnodup
      have hnot := (List.nodup_cons.mp hnodup).1
      simp only [ne_eq, Option.some.injEq]
      rw [List.filter_cons_of_neg (by simp), List.filter_eq_self]
      intro q hq
      refine decide_eq_true ?_
      rintro rfl
      exact hnot hq
  have hwaits : Awaits graph rest path f.isDeferred := by
    rw [← hpath]
    exact (h.good [] f rest htop).awaits
  refine ⟨?_, ?_, ?_, fun p r' hr' => (hback p r' hr').2, ?_, ?_⟩
  · rw [hloading', hstack, loads_resume]
  · rw [hloading']
    cases hloads : f.loads with
    | none =>
      rw [hloads] at hnodup
      exact hnodup
    | some p =>
      rw [hloads] at hnodup
      exact (List.nodup_cons.mp hnodup).2
  · intro p r' hr'
    obtain ⟨⟨r, hr⟩, -⟩ := hback p r' hr'
    exact h.read p r hr
  · refine h.givenRead_append hlog' fun p deferred id env' hgiven => ?_
    rcases List.mem_append.mp hgiven with hgiven | hgiven
    · exact absurd hgiven (hevent _ _ _ _)
    · obtain ⟨rfl, -⟩ := Event.given.inj (List.mem_singleton.mp hgiven)
      exact hread
  · rw [hstack]
    have hgiven : .given path f.isDeferred namespaceId env ∈ s'.log := by
      rw [hlog']
      simp
    refine good_resume hgood hwaits ⟨_, _, _, hgiven⟩ fun hdeferred => .inl ?_
    obtain ⟨r, hr, hset⟩ := hsettled hdeferred
    exact ⟨r, hr, hset, nofun⟩

theorem Inv.pushEager (h : Inv graph s) {module : Module S} {r : LinkedModule S V}
    (hpush : Move.PushesEager graph s s' path module namespaceId r) : Inv graph s' := by
  obtain ⟨hawaits, hunloaded, hread, hnamespace, hfresh, hold, hrecord, hloading, hstack, hlog⟩ :=
    hpush
  have hr : s'.record path = some r := by rw [hrecord, if_pos rfl]
  refine h.push hstack hread hfresh hrecord hloading hunloaded
    (fun p hp => (Option.some.inj hp).symm) hlog ?_
  refine h.good_push hfresh (fun p hp => (Option.some.inj hp).symm) hunloaded hold hrecord hlog ?_
  refine ⟨?_, ?_, (fun _ _ hdeferred => by cases hdeferred), hawaits, ?_⟩
  · intro m todo hloop
    obtain ⟨rfl, -⟩ := Prod.mk.inj (Option.some.inj hloop)
    exact hread
  · intro p hp
    obtain rfl := Option.some.inj hp
    exact ⟨r, hr, hfresh, hnamespace⟩
  · intro m todo hloop
    obtain ⟨rfl, rfl⟩ := Prod.mk.inj (Option.some.inj hloop)
    exact ⟨[], rfl, fun _ hmem => absurd hmem List.not_mem_nil⟩

theorem Inv.pushDeferred (h : Inv graph s) {module : Module S} {r : LinkedModule S V}
    (hpush : Move.PushesDeferred graph s s' path module r) : Inv graph s' := by
  obtain ⟨hawaits, hread, hfresh, hnone, hrecord, hloading, hstack, hlog⟩ := hpush
  have hunloaded : path ∉ s.loading := by
    intro hmem
    obtain ⟨r₀, _, hr₀, -⟩ := h.loading_active hmem
    rw [hnone] at hr₀
    cases hr₀
  have hold : ∀ r₀, s.record path = some r₀ → r₀.Gains r := by
    intro r₀ hr₀
    rw [hnone] at hr₀
    cases hr₀
  refine h.push hstack hread hfresh hrecord hloading hunloaded (fun _ hp => by cases hp) hlog ?_
  refine h.good_push hfresh (fun p hp => (Option.some.inj hp).symm) hunloaded hold hrecord hlog ?_
  refine ⟨?_, (fun _ hp => by cases hp), ?_, hawaits, ?_⟩
  · intro m todo hloop
    obtain ⟨rfl, -⟩ := Prod.mk.inj (Option.some.inj hloop)
    exact hread
  · intro p hp _
    obtain rfl := Option.some.inj hp
    rw [← h.loading]
    exact hunloaded
  · intro m todo hloop
    obtain ⟨rfl, rfl⟩ := Prod.mk.inj (Option.some.inj hloop)
    exact ⟨[], rfl, fun _ hmem => absurd hmem List.not_mem_nil⟩

theorem Inv.ends (h : Inv graph s) {module : Module S} {suspends : Bool}
    (hends : Move.Ends s s' path module namespaceId rest suspends) : Inv graph s' := by
  obtain ⟨htop, hrecord, hloading, hstack, hlog⟩ := hends
  have hgood := h.good [] _ rest htop
  obtain ⟨r, hr, hfresh, hid⟩ := hgood.active path rfl
  have hr' : s'.record path = some
      (if suspends then { r with tlaPending := true } else { r with evaluated := true }) := by
    rw [hrecord, if_pos rfl, hr]
    rfl
  have hlog' : s'.log = s.log ++ [if suspends then .suspended path else .completed path] ++
      [.given path false namespaceId ((s.record path).map LinkedModule.env)] := by
    rw [hlog, List.append_assoc]
    rfl
  refine h.popped htop rfl (fun p hp => ?_) (fun p r' hlookup => ?_) ?_ hstack hlog' ?_
    (h.read path r hr) fun _ => ⟨_, hr', ?_⟩
  · have hne : p ≠ path := fun heq => hp (by rw [heq]; rfl)
    rw [hrecord, if_neg hne]
  · by_cases hp : p = path
    · subst hp
      rw [hr'] at hlookup
      obtain rfl := Option.some.inj hlookup
      cases suspends with
      | true =>
        refine ⟨⟨r, hr⟩, fun _ => ?_, fun he => ?_, fun _ => ?_, fun e he => ?_⟩
        · simp [hid, Frame.namespaceId]
        · cases hfresh.evaluated.symm.trans he
        · rw [hlog]
          simp
        · cases hfresh.cachedError.symm.trans he
      | false =>
        refine ⟨⟨r, hr⟩, fun _ => ?_, fun _ => ?_, fun hp => ?_, fun e he => ?_⟩
        · simp [hid, Frame.namespaceId]
        · rw [hlog]
          simp
        · cases hfresh.tlaPending.symm.trans hp
        · cases hfresh.cachedError.symm.trans he
    · rw [hrecord, if_neg hp] at hlookup
      exact ⟨⟨r', hlookup⟩, h.logged hlog hlookup⟩
  · rw [hloading]
    refine List.filter_congr fun p _ => ?_
    simp only [Frame.loads, ne_eq, Option.some.injEq, eq_comm (a := path)]
  · intro p deferred id env
    cases suspends <;> simp
  · cases suspends with
    | true => exact .inr rfl
    | false => exact .inl rfl

theorem Inv.throws (h : Inv graph s) {module : Module S} {v : V}
    (hthrows : Move.Throws s s' path module namespaceId rest v) : Inv graph s' := by
  obtain ⟨htop, hrecord, hloading, hstack, hlog⟩ := hthrows
  have hgood := h.good [] _ rest htop
  obtain ⟨r, hr, hfresh, hid⟩ := hgood.active path rfl
  have hsplit : s.stack = (.body path module namespaceId :: Frame.abandoned rest) ++ s'.stack := by
    rw [hstack, List.cons_append, abandoned_append, htop]
  have hlog' : s'.log = s.log ++ ([.threw path (.thrown v), .refused path false (.thrown v)] ++
      (Frame.abandoned rest).map (Frame.refusal (.thrown v))) := by
    rw [hlog, List.append_assoc]
  refine h.unwound hsplit (fun p hp => ?_) (fun p r' hlookup => ?_) ?_ hlog' ?_
  · have hremoved := Frame.not_removes fun g hg => hp g (List.mem_cons_of_mem _ hg)
    have hne : p ≠ path := by
      rintro rfl
      exact hp (.body p module namespaceId) (by simp) rfl
    rw [hrecord, if_neg hremoved, if_neg hne]
  · rw [hrecord] at hlookup
    by_cases hremoved : p ∈ (Frame.abandoned rest).filterMap Frame.removes
    · rw [if_pos hremoved] at hlookup
      cases hlookup
    rw [if_neg hremoved] at hlookup
    by_cases hp : p = path
    · subst hp
      rw [if_pos rfl, hr] at hlookup
      obtain rfl := Option.some.inj hlookup
      refine ⟨⟨r, hr⟩, fun _ => ?_, fun he => ?_,
        (fun hpending => by cases hpending), fun e he => ?_⟩
      · simp [hid, Frame.namespaceId]
      · cases hfresh.evaluated.symm.trans he
      · obtain rfl := Option.some.inj he
        rw [hlog]
        simp
    · rw [if_neg hp] at hlookup
      exact ⟨⟨r', hlookup⟩, h.logged hlog' hlookup⟩
  · rw [hloading, List.filter_filter]
    refine List.filter_congr fun p _ => ?_
    simp only [Frame.loads, List.filterMap_cons, List.mem_cons, not_or, Bool.decide_and,
      Bool.and_comm, ne_eq]
  · intro p deferred id env hmem
    rcases List.mem_append.mp hmem with hmem | hmem
    · simp at hmem
    · exact refusals_not_given hmem

theorem Inv.fails (h : Inv graph s) {e : Failure S V} {before : List (Event P S V)}
    (hbefore : before = [] ∨ ∃ path deferred, before = [.refused path deferred e])
    (hfails : Move.Fails s s' e before) : Inv graph s' := by
  obtain ⟨hrecord, hloading, hstack, hlog⟩ := hfails
  have hsplit : s.stack = Frame.abandoned s.stack ++ s'.stack := by
    rw [hstack, abandoned_append]
  have hlog' : s'.log =
      s.log ++ (before ++ (Frame.abandoned s.stack).map (Frame.refusal e)) := by
    rw [hlog, List.append_assoc]
  refine h.unwound hsplit (fun p hp => ?_) (fun p r' hlookup => ?_) hloading hlog' ?_
  · rw [hrecord, if_neg (Frame.not_removes hp)]
  · rw [hrecord] at hlookup
    by_cases hremoved : p ∈ (Frame.abandoned s.stack).filterMap Frame.removes
    · rw [if_pos hremoved] at hlookup
      cases hlookup
    · rw [if_neg hremoved] at hlookup
      exact ⟨⟨r', hlookup⟩, h.logged hlog' hlookup⟩
  · intro p deferred id env hmem
    rcases List.mem_append.mp hmem with hmem | hmem
    · rcases hbefore with rfl | ⟨q, d, rfl⟩
      · cases hmem
      · simp at hmem
    · exact refusals_not_given hmem

/-- **The invariant is kept** by every move. -/
theorem Inv.move (h : Inv graph s) (hmove : Move graph s label s') : Inv graph s' := by
  cases hmove with
  | idle hrecord hloading hstack hlog =>
    have hlog' : s'.log = s.log ++ [] := by rw [hlog, List.append_nil]
    exact h.same hrecord hloading hstack hlog' fun _ _ _ _ => List.not_mem_nil
  | refuse path deferred e hrecord hloading hstack hlog _ =>
    exact h.same hrecord hloading hstack hlog (by simp)
  | settle path e _ hrecord hloading hstack hlog _ =>
    exact h.same hrecord hloading hstack hlog (by simp)
  | answer path deferred namespaceId r' _ hanswers => exact h.answer hanswers
  | pushEager path module namespaceId r hpush => exact h.pushEager hpush
  | pushDeferred path module r hpush => exact h.pushDeferred hpush
  | start path module namespaceId rest htop hlinks hrecord hloading hstack hlog =>
    have hgood := h.good [] _ rest htop
    refine h.replace htop hstack rfl (fun _ hp => hp) hrecord hloading hlog (by simp) ?_
    have hsame : Good graph s' [] (.eager path module namespaceId []) rest :=
      hgood.mono (fun p _ r hr hfresh hid => ⟨r, by rw [hrecord]; exact hr, hfresh, hid⟩)
        (mem_log_append hlog) fun child r hr hset hall => ⟨r, by rw [hrecord]; exact hr, hset, hall⟩
    exact ⟨hsame.read, hsame.active, (fun _ _ hdeferred => by cases hdeferred), hsame.awaits,
      hsame.taken⟩
  | gathers path module rest htop hrecord hloading hstack hlog =>
    have hgood := h.good [] _ rest htop
    exact h.replace htop hstack rfl (fun _ hp => by cases hp) hrecord hloading hlog (by simp)
      (.of_searching rfl rfl rfl hgood.awaits)
  | works path pending seen targets f' rest htop hworks hrecord hloading hstack hlog =>
    have hgood := h.good [] _ rest htop
    have hlog' : s'.log = s.log ++ [] := by rw [hlog, List.append_nil]
    rcases hworks with ⟨pending', seen', targets', rfl⟩ | rfl
    · exact h.replace htop hstack rfl (fun _ hp => by cases hp) hrecord hloading hlog'
        (fun _ _ _ _ => List.not_mem_nil) (.of_searching rfl rfl rfl hgood.awaits)
    · exact h.replace htop hstack rfl (fun _ hp => by cases hp) hrecord hloading hlog'
        (fun _ _ _ _ => List.not_mem_nil) (.of_searching rfl rfl rfl hgood.awaits)
  | returns path namespaceId r rest _ htop hr hnamespace hrecord hloading hstack hlog =>
    have hlog' : s'.log = s.log ++ [] ++ [.given path true namespaceId (some r.env)] := by
      rw [hlog, List.append_nil]
    refine h.popped htop rfl (fun p _ => by rw [hrecord]) (fun p r' hr' => ?_) ?_ hstack
      hlog' (fun _ _ _ _ => List.not_mem_nil) (h.read path r hr) (fun hdeferred => by cases hdeferred)
    · rw [hrecord] at hr'
      exact ⟨⟨r', hr'⟩, h.logged hlog hr'⟩
    · rw [hloading]
      simp [Frame.loads]
  | ends path module namespaceId rest suspends hends => exact h.ends hends
  | throws path module namespaceId rest v _ hthrows => exact h.throws hthrows
  | fails e before _ hbefore hfails =>
    refine h.fails (hbefore.imp_right ?_) hfails
    rintro ⟨path, deferred, heq, -⟩
    exact ⟨path, deferred, heq⟩

theorem Inv.step (h : Inv graph s) (label : Label P V) :
    Inv graph (V12.ModuleLoader.step graph s label) :=
  h.move (step_move h label)

/-- **Every state of a run** has the invariant. -/
theorem inv_run (graph : Graph P S) (labels : List (Label P V)) :
    Inv graph (Lib.run (step graph) State.empty labels) :=
  Lib.run_invariant (C := fun _ _ => True) (fun _ label h _ => h.step label) (inv_empty graph)
    (Lib.stepsMeet_of_forall (fun _ _ => trivial) labels State.empty)

/-! ## §3 When a body starts -/

/-- A body runs only once its module is linked. -/
structure Ran (s : State P S V) : Prop where
  body : ∀ path module namespaceId, .body path module namespaceId ∈ s.stack → .linked path ∈ s.log
  ended : ∀ path, .completed path ∈ s.log ∨ .suspended path ∈ s.log → .linked path ∈ s.log

omit [DecidableEq P] [DecidableEq S] in
theorem Ran.extend (h : Ran s)
    (hbody : ∀ path module namespaceId, .body path module namespaceId ∈ s'.stack →
      .body path module namespaceId ∈ s.stack ∨ .linked path ∈ s'.log)
    (hlog : s'.log = s.log ++ events)
    (hended : ∀ path, .completed path ∈ events ∨ .suspended path ∈ events →
      .linked path ∈ s.log) : Ran s' := by
  have hkept := mem_log_append hlog
  refine ⟨fun path module namespaceId hmem => ?_, fun path hend => ?_⟩
  · rcases hbody path module namespaceId hmem with hold | hnew
    · exact hkept _ (h.body _ _ _ hold)
    · exact hnew
  · rw [hlog, List.mem_append, List.mem_append] at hend
    rcases hend with (hold | hnew) | (hold | hnew)
    · exact hkept _ (h.ended path (.inl hold))
    · exact hkept _ (hended path (.inl hnew))
    · exact hkept _ (h.ended path (.inr hold))
    · exact hkept _ (hended path (.inr hnew))

theorem Ran.move (h : Ran s) (hmove : Move graph s label s') : Ran s' := by
  have hrefusals : ∀ (e : Failure S V) (stack : List (Frame P S)) path,
      .completed path ∈ stack.map (Frame.refusal e) ∨
        .suspended path ∈ stack.map (Frame.refusal e) → .linked path ∈ s.log := by
    intro e stack path hmem
    rcases hmem with hmem | hmem
    · obtain ⟨f, -, hf⟩ := List.mem_map.mp hmem
      cases hf
    · obtain ⟨f, -, hf⟩ := List.mem_map.mp hmem
      cases hf
  -- a frame that is no body comes on top of frames that were there
  have hpushed : ∀ {f : Frame P S} {below : List (Frame P S)} {events : List (Event P S V)},
      s'.stack = f :: below → below ⊆ s.stack → s'.log = s.log ++ events →
      (∀ path module namespaceId, Frame.body path module namespaceId ≠ f) →
      (∀ path, .completed path ∉ events ∧ .suspended path ∉ events) → Ran s' := by
    intro f below events hstack hbelow hlog hf hevents
    refine h.extend ?_ hlog fun p hended => ?_
    · rw [hstack]
      intro p m id hmem
      exact .inl (hbelow ((List.mem_cons.mp hmem).resolve_left (hf p m id)))
    · exact absurd hended (not_or.mpr (hevents p))
  cases hmove with
  | idle _ _ hstack hlog =>
    have hlog' : s'.log = s.log ++ [] := by rw [hlog, List.append_nil]
    exact h.extend (by rw [hstack]; exact fun _ _ _ hmem => .inl hmem) hlog' (by simp)
  | refuse path deferred e _ _ hstack hlog _ =>
    exact h.extend (by rw [hstack]; exact fun _ _ _ hmem => .inl hmem) hlog (by simp)
  | settle path e _ _ _ hstack hlog _ =>
    exact h.extend (by rw [hstack]; exact fun _ _ _ hmem => .inl hmem) hlog (by simp)
  | answer path deferred namespaceId r' _ hanswers =>
    refine h.extend ?_ hanswers.log (by simp)
    rw [hanswers.stack]
    exact fun _ _ _ hmem => .inl (body_mem_resume hmem)
  | pushEager path module namespaceId r hpush =>
    exact hpushed hpush.stack (List.Subset.refl _) (hpush.log.trans (List.append_nil _).symm)
      (by simp) (by simp)
  | pushDeferred path module r hpush =>
    exact hpushed hpush.stack (List.Subset.refl _) (hpush.log.trans (List.append_nil _).symm)
      (by simp) (by simp)
  | start path module namespaceId rest htop _ _ _ hstack hlog =>
    refine h.extend ?_ hlog (by simp)
    rw [hstack, htop]
    intro p m id hmem
    rcases List.mem_cons.mp hmem with heq | hmem
    · obtain ⟨rfl, -⟩ := Frame.body.inj heq
      refine .inr ?_
      rw [hlog]
      simp
    · exact .inl (List.mem_cons_of_mem _ hmem)
  | gathers path module rest htop _ _ hstack hlog =>
    exact hpushed hstack (by rw [htop]; exact List.subset_cons_self ..) hlog (by simp) (by simp)
  | works path pending seen targets f' rest htop hworks _ _ hstack hlog =>
    refine hpushed hstack (by rw [htop]; exact List.subset_cons_self ..)
      (hlog.trans (List.append_nil _).symm) ?_ (by simp)
    rcases hworks with ⟨_, _, _, rfl⟩ | rfl <;> simp
  | returns path namespaceId r rest _ htop _ _ _ _ hstack hlog =>
    refine h.extend ?_ hlog (by simp)
    rw [hstack, htop]
    exact fun _ _ _ hmem => .inl (List.mem_cons_of_mem _ (body_mem_resume hmem))
  | ends path module namespaceId rest suspends hends =>
    obtain ⟨htop, -, -, hstack, hlog⟩ := hends
    have hlinked : .linked path ∈ s.log := h.body path module namespaceId (by rw [htop]; simp)
    refine h.extend ?_ hlog ?_
    · rw [hstack, htop]
      exact fun _ _ _ hmem => .inl (List.mem_cons_of_mem _ (body_mem_resume hmem))
    · intro p hmem
      have hp : p = path := by
        cases suspends with
        | true => simpa using hmem
        | false => simpa using hmem
      rw [hp]
      exact hlinked
  | throws path module namespaceId rest v _ hthrows =>
    obtain ⟨htop, -, -, hstack, hlog⟩ := hthrows
    have hlog' : s'.log = s.log ++ ([.threw path (.thrown v), .refused path false (.thrown v)] ++
        (Frame.abandoned rest).map (Frame.refusal (.thrown v))) := by
      rw [hlog, List.append_assoc]
    refine h.extend ?_ hlog' ?_
    · rw [hstack, htop]
      intro p m id hmem
      exact .inl (List.mem_cons_of_mem _ ((List.dropWhile_suffix _).subset hmem))
    · intro p hmem
      simp only [List.mem_append, List.mem_cons, reduceCtorEq, List.not_mem_nil, or_self,
        false_or] at hmem
      exact hrefusals _ _ p hmem
  | fails e before _ hbefore hfails =>
    obtain ⟨-, -, hstack, hlog⟩ := hfails
    have hlog' : s'.log =
        s.log ++ (before ++ (Frame.abandoned s.stack).map (Frame.refusal e)) := by
      rw [hlog, List.append_assoc]
    refine h.extend ?_ hlog' ?_
    · rw [hstack]
      exact fun _ _ _ hmem => .inl ((List.dropWhile_suffix _).subset hmem)
    · intro p hmem
      rcases hbefore with rfl | ⟨q, d, rfl, -⟩
      · exact hrefusals _ _ p (by simpa using hmem)
      · exact hrefusals _ _ p (by simpa using hmem)

theorem ran_run (graph : Graph P S) (labels : List (Label P V)) :
    Ran (Lib.run (step graph) State.empty labels) := by
  have hboth := Lib.run_invariant
    (I := fun s : State P S V => Inv graph s ∧ Ran s)
    (fun s label h _ => ⟨h.1.step label, h.2.move (step_move h.1 label)⟩)
    ⟨inv_empty graph, ⟨nofun, by rintro _ (h | h) <;> cases h⟩⟩
    (Lib.stepsMeet_of_forall (fun _ _ => trivial) labels State.empty)
  exact hboth.2

/-! ## §4 What a walk has passed is linked -/

/-- The module is linked, or one of these frames is its own load, which has not come to the link. -/
def Linking (log : List (Event P S V)) (stack : List (Frame P S)) (path : P) : Prop :=
  .linked path ∈ log ∨ path ∈ stack.filterMap Frame.removes

/-- Every load of the stack has passed its first requests, and what they asked for is linked or
waits for its link in the load itself or below it. -/
def Walked (graph : Graph P S) (log : List (Event P S V)) : List (Frame P S) → Prop
  | [] => True
  | f :: rest =>
    (∀ module todo, f.loop = some (module, todo) → ∃ taken, requests module = taken ++ todo ∧
      ∀ r ∈ taken, Linking log (f :: rest) (graph.resolve f.path r.1)) ∧ Walked graph log rest

omit [DecidableEq P] [DecidableEq S] in
theorem Linking.mono {log log' : List (Event P S V)} {stack : List (Frame P S)} {path : P}
    (h : Linking log stack path) (hlog : ∀ event ∈ log, event ∈ log') : Linking log' stack path :=
  h.imp (hlog _) id

omit [DecidableEq P] in
theorem Walked.mono {log log' : List (Event P S V)} (hlog : ∀ event ∈ log, event ∈ log')
    {stack : List (Frame P S)} (h : Walked graph log stack) : Walked graph log' stack := by
  induction stack with
  | nil => exact trivial
  | cons f rest ih =>
    refine ⟨fun module todo hloop => ?_, ih h.2⟩
    obtain ⟨taken, heq, hall⟩ := h.1 module todo hloop
    exact ⟨taken, heq, fun r hr => (hall r hr).mono hlog⟩

omit [DecidableEq P] in
theorem Walked.append {log : List (Event P S V)} {above below : List (Frame P S)}
    (h : Walked graph log (above ++ below)) : Walked graph log below := by
  induction above with
  | nil => exact h
  | cons f above ih => exact ih h.2

omit [DecidableEq P] in
/-- A frame without a loop asks for nothing more. -/
theorem Walked.searching {log : List (Event P S V)} {f : Frame P S} {rest : List (Frame P S)}
    (h : Walked graph log rest) (hloop : f.loop = none) : Walked graph log (f :: rest) :=
  ⟨fun module todo hsome => absurd (hloop.symm.trans hsome) (fun heq => by cases heq), h⟩

omit [DecidableEq P] in
/-- A load is pushed with all its requests ahead of it. -/
theorem Walked.pushed {log : List (Event P S V)} {f : Frame P S} {rest : List (Frame P S)}
    (h : Walked graph log rest)
    (hloop : ∀ module todo, f.loop = some (module, todo) → todo = requests module) :
    Walked graph log (f :: rest) :=
  ⟨fun module todo hsome => ⟨[], (hloop module todo hsome).symm, by simp⟩, h⟩

omit [DecidableEq P] in
/-- The answer to the request on top takes it off the loop of the frame that made it. -/
theorem Walked.resume {log : List (Event P S V)} {deferred : Bool} {path : P}
    {stack : List (Frame P S)} (h : Walked graph log stack)
    (hawaits : Awaits graph stack path deferred) (hlinking : Linking log stack path) :
    Walked graph log (resume stack) := by
  cases stack with
  | nil => exact h
  | cons top rest =>
    rw [resume_cons]
    have hremoves : (top.resumed :: rest).filterMap Frame.removes =
        (top :: rest).filterMap Frame.removes := by
      rw [List.filterMap_cons, List.filterMap_cons, top.resumed_same.2.2.2.2.2]
    refine ⟨fun module todo hloop => ?_, h.2⟩
    have hshift : ∀ request, top.loop = some (module, request :: todo) →
        path = graph.resolve top.path request.1 →
        ∃ taken, requests module = taken ++ todo ∧ ∀ r ∈ taken,
          Linking log (top.resumed :: rest) (graph.resolve top.resumed.path r.1) := by
      intro request hsome hpath
      obtain ⟨taken, heq, hall⟩ := h.1 module (request :: todo) hsome
      refine ⟨taken ++ [request], by rw [heq, List.append_assoc]; rfl, fun r hr => ?_⟩
      rw [Linking, hremoves, top.resumed_same.1]
      rcases List.mem_append.mp hr with hr | hr
      · exact hall r hr
      · rw [List.mem_singleton.mp hr, ← hpath]
        exact hlinking
    have hsame : top.resumed = top → top.loop = some (module, todo) →
        ∃ taken, requests module = taken ++ todo ∧ ∀ r ∈ taken,
          Linking log (top.resumed :: rest) (graph.resolve top.resumed.path r.1) := by
      intro heq hsome
      rw [heq]
      exact h.1 module todo hsome
    cases top with
    | eager p m id requests =>
      cases requests with
      | nil => exact hsame rfl hloop
      | cons request requests =>
        obtain ⟨rfl, rfl⟩ := Prod.mk.inj (Option.some.inj hloop)
        exact hshift request rfl hawaits.1
    | deferred p m requests =>
      cases requests with
      | nil => exact hsame rfl hloop
      | cons request requests =>
        obtain ⟨rfl, rfl⟩ := Prod.mk.inj (Option.some.inj hloop)
        exact hshift request rfl hawaits.1
    | body p m id => exact hsame rfl hloop
    | gather => cases hloop
    | targets p requests => cases requests <;> cases hloop

/-- The invariant: a module with a record is linked or waits for its link in an active load. -/
structure Linked (graph : Graph P S) (s : State P S V) : Prop where
  record : ∀ path r, s.record path = some r → Linking s.log s.stack path
  searching : ∀ f ∈ s.stack, f.loop = none → .linked f.path ∈ s.log
  walked : Walked graph s.log s.stack

/-- What is given up leaves the rest of the stack as it was, and the records of its own. -/
theorem Linked.unwound (h : Linked graph s) (given : List (Frame P S))
    (hsplit : s.stack = given ++ s'.stack)
    (hrecord : ∀ path r, s'.record path = some r →
      path ∉ given.filterMap Frame.removes ∧ ∃ r₀, s.record path = some r₀)
    (hlog : s'.log = s.log ++ events) : Linked graph s' := by
  have hkept := mem_log_append hlog
  refine ⟨fun path r hr => ?_, fun f hf hloop => ?_, ?_⟩
  · obtain ⟨hremoved, r₀, hr₀⟩ := hrecord path r hr
    refine (h.record path r₀ hr₀).imp (hkept _) fun hmem => ?_
    rw [hsplit, List.filterMap_append, List.mem_append] at hmem
    exact hmem.resolve_left hremoved
  · exact hkept _ (h.searching f (by rw [hsplit]; exact List.mem_append_right _ hf) hloop)
  · have hwalked := h.walked
    rw [hsplit] at hwalked
    exact hwalked.append.mono hkept

omit [DecidableEq P] [DecidableEq S] in
theorem Linking.moved {log log' : List (Event P S V)} {stack stack' : List (Frame P S)} {path : P}
    (h : Linking log stack path) (hlog : ∀ event ∈ log, event ∈ log')
    (hstack : ∀ p ∈ stack.filterMap Frame.removes,
      .linked p ∈ log' ∨ p ∈ stack'.filterMap Frame.removes) : Linking log' stack' path :=
  h.elim (fun hlinked => .inl (hlog _ hlinked)) (hstack path)

omit [DecidableEq P] [DecidableEq S] in
theorem searching_resume {stack : List (Frame P S)} {log : List (Event P S V)}
    (h : ∀ f ∈ stack, f.loop = none → .linked f.path ∈ log) :
    ∀ f ∈ resume stack, f.loop = none → .linked f.path ∈ log := by
  cases stack with
  | nil => exact h
  | cons top rest =>
    rw [resume_cons]
    intro f hf hloop
    rcases List.mem_cons.mp hf with rfl | hf
    · rw [top.resumed_same.1]
      refine h top (by simp) ?_
      cases top with
      | eager p m id todo => cases todo <;> cases hloop
      | deferred p m todo => cases todo <;> cases hloop
      | body => cases hloop
      | _ => rfl
    · exact h f (List.mem_cons_of_mem _ hf) hloop

/-- The request on top is answered. -/
theorem Linked.answered {deferred : Bool} {rest : List (Frame P S)} (h : Linked graph s)
    (given : List (Frame P S)) (hsplit : s.stack = given ++ rest)
    (hgiven : ∀ f ∈ given, f.removes = none)
    (hawaits : Awaits graph rest path deferred) (hlinking : Linking s.log rest path)
    (hrecord : ∀ p r, s'.record p = some r → ∃ r₀, s.record p = some r₀)
    (hstack : s'.stack = resume rest) (hlog : s'.log = s.log ++ events) : Linked graph s' := by
  have hkept := mem_log_append hlog
  have hremoves : s.stack.filterMap Frame.removes = rest.filterMap Frame.removes := by
    rw [hsplit, List.filterMap_append, List.filterMap_eq_nil_iff.mpr hgiven, List.nil_append]
  have hwalked : Walked graph s.log rest := by
    have hwhole := h.walked
    rw [hsplit] at hwhole
    exact hwhole.append
  refine ⟨fun p r hr => ?_, ?_, ?_⟩
  · obtain ⟨r₀, hr₀⟩ := hrecord p r hr
    refine (h.record p r₀ hr₀).imp (hkept _) fun hmem => ?_
    rw [hstack, removes_resume, ← hremoves]
    exact hmem
  · rw [hstack]
    refine searching_resume fun f hf hloop => hkept _ (h.searching f ?_ hloop)
    rw [hsplit]
    exact List.mem_append_right _ hf
  · rw [hstack]
    exact (hwalked.resume hawaits hlinking).mono hkept

/-- The load on top comes to its link: the rest of its frames is linked. -/
theorem Linked.links {f f' : Frame P S} {rest : List (Frame P S)} (h : Linked graph s)
    (htop : s.stack = f :: rest) (hstack : s'.stack = f' :: rest)
    (hremoves : ∀ p, f.removes = some p → p = f.path) (hpath : f'.path = f.path)
    (hloop : f'.loop = none ∨ f'.loop = f.loop) (hrecord : s'.record = s.record)
    (hlog : s'.log = s.log ++ events) (hlinked : .linked f.path ∈ s'.log) : Linked graph s' := by
  have hkept := mem_log_append hlog
  have hmoved : ∀ p ∈ (f :: rest).filterMap Frame.removes,
      .linked p ∈ s'.log ∨ p ∈ (f' :: rest).filterMap Frame.removes := by
    intro p hmem
    obtain ⟨g, hg, hremoved⟩ := List.mem_filterMap.mp hmem
    rcases List.mem_cons.mp hg with rfl | hg
    · rw [hremoves p hremoved]
      exact .inl hlinked
    · exact .inr (List.mem_filterMap.mpr ⟨g, List.mem_cons_of_mem _ hg, hremoved⟩)
  have hwalked := h.walked
  rw [htop] at hwalked
  refine ⟨fun p r hr => ?_, ?_, ?_⟩
  · rw [hrecord] at hr
    have hlinking := h.record p r hr
    rw [htop] at hlinking
    rw [hstack]
    exact hlinking.moved hkept hmoved
  · rw [hstack]
    intro g hg hnone
    rcases List.mem_cons.mp hg with rfl | hg
    · rw [hpath]
      exact hlinked
    · exact hkept _ (h.searching g (by rw [htop]; exact List.mem_cons_of_mem _ hg) hnone)
  · rw [hstack]
    rcases hloop with hnone | hsame
    · exact (hwalked.2.mono hkept).searching hnone
    · refine ⟨fun module todo hsome => ?_, hwalked.2.mono hkept⟩
      rw [hsame] at hsome
      obtain ⟨taken, heq, hall⟩ := hwalked.1 module todo hsome
      refine ⟨taken, heq, fun r hr => ?_⟩
      rw [hpath]
      exact (hall r hr).moved hkept hmoved

/-- A load is pushed, and its record entered. -/
theorem Linked.pushes {f : Frame P S} {r : LinkedModule S V} (h : Linked graph s)
    (hremoves : f.removes = some path)
    (hloop : ∃ module, f.loop = some (module, requests module))
    (hrecord : ∀ p, s'.record p = if p = path then some r else s.record p)
    (hstack : s'.stack = f :: s.stack) (hlog : s'.log = s.log) : Linked graph s' := by
  have hcons : (f :: s.stack).filterMap Frame.removes =
      path :: s.stack.filterMap Frame.removes := List.filterMap_cons_some hremoves
  obtain ⟨module, hmodule⟩ := hloop
  refine ⟨fun p r' hr' => ?_, ?_, ?_⟩
  · rw [Linking, hlog, hstack, hcons]
    by_cases hp : p = path
    · exact .inr (List.mem_cons.mpr (.inl hp))
    · rw [hrecord, if_neg hp] at hr'
      exact (h.record p r' hr').imp id (List.mem_cons_of_mem _)
  · rw [hlog, hstack]
    intro g hg hnone
    rcases List.mem_cons.mp hg with rfl | hg
    · cases hmodule.symm.trans hnone
    · exact h.searching g hg hnone
  · rw [hlog, hstack]
    refine h.walked.pushed fun module' todo hsome => ?_
    obtain ⟨rfl, rfl⟩ := Prod.mk.inj (Option.some.inj (hmodule.symm.trans hsome))
    rfl

theorem Linked.move (h : Linked graph s) (hinv : Inv graph s) (hran : Ran s)
    (hmove : Move graph s label s') : Linked graph s' := by
  have hpresent : ∀ {removed : List P} {f : P → Option (LinkedModule S V)},
      (∀ p r, f p = some r → ∃ r₀, s.record p = some r₀) →
      (∀ p, s'.record p = if p ∈ removed then none else f p) →
      ∀ p r, s'.record p = some r → p ∉ removed ∧ ∃ r₀, s.record p = some r₀ := by
    intro removed f hf hrecord p r hr
    rw [hrecord] at hr
    by_cases hmem : p ∈ removed
    · rw [if_pos hmem] at hr
      cases hr
    · rw [if_neg hmem] at hr
      exact ⟨hmem, hf p r hr⟩
  have hsame : ∀ {events : List (Event P S V)}, s'.record = s.record → s'.stack = s.stack →
      s'.log = s.log ++ events → Linked graph s' := by
    intro events hrecord hstack hlog
    refine h.unwound [] (by rw [hstack]; rfl) (fun p r hr => ?_) hlog
    rw [hrecord] at hr
    exact ⟨by simp, r, hr⟩
  -- a step may change the record of the module it is about, and enters none
  have hchanged : ∀ {p path : P} {f : LinkedModule S V → LinkedModule S V} {r : LinkedModule S V},
      (if p = path then (s.record p).map f else s.record p) = some r →
        ∃ r₀, s.record p = some r₀ := by
    intro p path f r hr
    by_cases hp : p = path
    · rw [if_pos hp] at hr
      obtain ⟨r₀, hr₀, -⟩ := Option.map_eq_some_iff.mp hr
      exact ⟨r₀, hr₀⟩
    · rw [if_neg hp] at hr
      exact ⟨r, hr⟩
  cases hmove with
  | idle hrecord _ hstack hlog => exact hsame hrecord hstack (hlog.trans (List.append_nil _).symm)
  | refuse _ _ _ hrecord _ hstack hlog _ => exact hsame hrecord hstack hlog
  | settle _ _ _ hrecord _ hstack hlog _ => exact hsame hrecord hstack hlog
  | answer path deferred namespaceId r' _ hanswers =>
    obtain ⟨hawaits, hnone, -, -, hstack, hlog, hr', -⟩ := hanswers
    have hold : ∀ p r, s'.record p = some r → ∃ r₀, s.record p = some r₀ := by
      intro p r hr
      cases hp : s.record p with
      | none => cases (hnone p hp).symm.trans hr
      | some r₀ => exact ⟨r₀, rfl⟩
    obtain ⟨r₀, hr₀⟩ := hold path r' hr'
    exact h.answered [] rfl (by simp) hawaits (h.record path r₀ hr₀) hold hstack hlog
  | pushEager path module namespaceId r hpush =>
    exact h.pushes rfl ⟨module, rfl⟩ hpush.record hpush.stack hpush.log
  | pushDeferred path module r hpush =>
    exact h.pushes rfl ⟨module, rfl⟩ hpush.record hpush.stack hpush.log
  | start path module namespaceId rest htop _ hrecord _ hstack hlog =>
    refine h.links htop hstack (fun p hp => (Option.some.inj hp).symm) rfl (.inr rfl) hrecord hlog ?_
    rw [hlog]
    simp [Frame.path]
  | gathers path module rest htop hrecord _ hstack hlog =>
    refine h.links htop hstack (fun p hp => (Option.some.inj hp).symm) rfl (.inl rfl) hrecord hlog ?_
    rw [hlog]
    simp [Frame.path]
  | works path pending seen targets f' rest htop hworks hrecord _ hstack hlog =>
    have hlinked : .linked path ∈ s.log :=
      h.searching (.gather path pending seen targets) (by rw [htop]; simp) rfl
    have hf' : f'.path = path ∧ f'.loop = none := by
      rcases hworks with ⟨pending', seen', targets', rfl⟩ | rfl
      · exact ⟨rfl, rfl⟩
      · exact ⟨rfl, rfl⟩
    refine h.links htop hstack (fun p hp => by cases hp) hf'.1 (.inl hf'.2) hrecord
      (hlog.trans (List.append_nil _).symm) ?_
    rw [hlog]
    exact hlinked
  | returns path namespaceId r rest _ htop _ _ hrecord _ hstack hlog =>
    have hlinked : .linked path ∈ s.log := h.searching (.targets path []) (by rw [htop]; simp) rfl
    refine h.answered [.targets path []] htop (by simp [Frame.removes])
      (hinv.good [] _ rest htop).awaits (.inl hlinked) (fun p r hr => ?_) hstack hlog
    rw [hrecord] at hr
    exact ⟨r, hr⟩
  | ends path module namespaceId rest suspends hends =>
    obtain ⟨htop, hrecord, -, hstack, hlog⟩ := hends
    have hlinked : .linked path ∈ s.log := hran.body path module namespaceId (by rw [htop]; simp)
    refine h.answered [.body path module namespaceId] htop (by simp [Frame.removes])
      (hinv.good [] _ rest htop).awaits (.inl hlinked) (fun p r hr => ?_) hstack hlog
    rw [hrecord] at hr
    exact hchanged hr
  | throws path module namespaceId rest v _ hthrows =>
    obtain ⟨htop, hrecord, -, hstack, hlog⟩ := hthrows
    have hsplit : s.stack = (.body path module namespaceId :: Frame.abandoned rest) ++ s'.stack := by
      rw [htop, hstack, List.cons_append, abandoned_append]
    exact h.unwound _ hsplit (hpresent (fun p r hr => hchanged hr) hrecord)
      (by rw [hlog, List.append_assoc])
  | fails e before _ _ hfails =>
    obtain ⟨hrecord, -, hstack, hlog⟩ := hfails
    have hsplit : s.stack = Frame.abandoned s.stack ++ s'.stack := by
      rw [hstack, abandoned_append]
    exact h.unwound _ hsplit (hpresent (fun p r hr => ⟨r, hr⟩) hrecord)
      (by rw [hlog, List.append_assoc])

theorem linked_run (graph : Graph P S) (labels : List (Label P V)) :
    Linked graph (Lib.run (step graph) State.empty labels) := by
  have hall := Lib.run_invariant
    (I := fun s : State P S V => Inv graph s ∧ Ran s ∧ Linked graph s)
    (fun s label h _ => ⟨h.1.step label, h.2.1.move (step_move h.1 label),
      h.2.2.move h.1 h.2.1 (step_move h.1 label)⟩)
    ⟨inv_empty graph, ⟨nofun, by rintro _ (h | h) <;> cases h⟩, ⟨nofun, nofun, trivial⟩⟩
    (Lib.stepsMeet_of_forall (fun _ _ => trivial) labels State.empty)
  exact hall.2.2

/-! ## §5 When a body starts -/

def Starts (graph : Graph P S) (s : State P S V) (label : Label P V) (path : P) : Prop :=
  ∃ events, (step graph s label).log = s.log ++ events ∧ .started path ∈ events

theorem Move.of_starts (hmove : Move graph s label (step graph s label))
    (h : Starts graph s label path) :
    ∃ module namespaceId rest, s.stack = .eager path module namespaceId [] :: rest ∧
      (linkRecord graph s.modules path s.heap).2 = none := by
  obtain ⟨events, heq, hstarted⟩ := h
  have hevents : ∀ {events' : List (Event P S V)},
      (step graph s label).log = s.log ++ events' → .started path ∈ events' := by
    intro events' hlog
    rw [heq] at hlog
    rw [← List.append_cancel_left hlog]
    exact hstarted
  have hrefusals : ∀ (e : Failure S V) (stack : List (Frame P S)),
      .started path ∉ stack.map (Frame.refusal e) := by
    intro e stack hmem
    obtain ⟨f, -, hf⟩ := List.mem_map.mp hmem
    cases hf
  cases hmove with
  | idle _ _ _ hlog => exact absurd (hevents (hlog.trans (List.append_nil _).symm)) (by simp)
  | refuse _ _ _ _ _ _ hlog _ => exact absurd (hevents hlog) (by simp)
  | settle _ _ _ _ _ _ hlog _ => exact absurd (hevents hlog) (by simp)
  | answer _ _ _ _ _ hanswers => exact absurd (hevents hanswers.log) (by simp)
  | pushEager _ _ _ _ hpush =>
    exact absurd (hevents (hpush.log.trans (List.append_nil _).symm)) (by simp)
  | pushDeferred _ _ _ hpush =>
    exact absurd (hevents (hpush.log.trans (List.append_nil _).symm)) (by simp)
  | start p module namespaceId rest htop hlinks _ _ _ hlog =>
    have hp : path = p := by simpa using hevents hlog
    subst hp
    exact ⟨module, namespaceId, rest, htop, hlinks⟩
  | gathers _ _ _ _ _ _ _ hlog => exact absurd (hevents hlog) (by simp)
  | works _ _ _ _ _ _ _ _ _ _ _ hlog =>
    exact absurd (hevents (hlog.trans (List.append_nil _).symm)) (by simp)
  | returns _ _ _ _ _ _ _ _ _ _ _ hlog => exact absurd (hevents hlog) (by simp)
  | ends _ _ _ _ suspends hends =>
    refine absurd (hevents hends.log) ?_
    cases suspends <;> simp
  | throws _ _ _ _ _ _ hthrows =>
    have hlog := hthrows.log
    rw [List.append_assoc] at hlog
    refine absurd (hevents hlog) fun hmem => ?_
    rcases List.mem_append.mp hmem with hmem | hmem
    · simp at hmem
    · exact hrefusals _ _ hmem
  | fails _ before _ hbefore hfails =>
    have hlog := hfails.log
    rw [List.append_assoc] at hlog
    refine absurd (hevents hlog) fun hmem => ?_
    rcases List.mem_append.mp hmem with hmem | hmem
    · rcases hbefore with rfl | ⟨_, _, rfl, -⟩
      · cases hmem
      · simp at hmem
    · exact hrefusals _ _ hmem

abbrev reached (graph : Graph P S) (labels : List (Label P V)) : State P S V :=
  Lib.run (step graph) State.empty labels

/-- A module that only asks for others: each specifier with its phase. -/
def phased (entries : List (Nat × Bool)) (isAsync : Bool) : Module Nat where
  imports := entries.map fun entry => ⟨entry.1, "", none, entry.2⟩
  exports := []
  varSymbols := []
  isAsync := isAsync
  exported_nodup := List.nodup_nil
  locals_nodup := by
    have hnone : (entries.map fun entry =>
        (⟨entry.1, "", none, entry.2⟩ : ImportEntry Nat)).filterMap ImportEntry.localSymbol = [] := by
      rw [List.filterMap_eq_nil_iff]
      intro entry hentry
      obtain ⟨pair, -, rfl⟩ := List.mem_map.mp hentry
      rfl
    rw [hnone]
    exact List.nodup_nil
  default_only := nofun
  requested := nofun

def effects (specifiers : List Nat) (isAsync : Bool) : Module Nat :=
  phased (specifiers.map fun specifier => (specifier, false)) isAsync

def missingSibling : Graph Nat Nat where
  read
    | 0 => .ok (effects [1, 2] false)
    | 1 => .ok (effects [] false)
    | _ => .error "Cannot find module"
  resolve _ specifier := specifier

/-- Module 0 imports 1, and 2 with `defer`. -/
def eagerAndDeferred : Graph Nat Nat where
  read
    | 0 => .ok (phased [(1, false), (2, true)] false)
    | _ => .ok (phased [] false)
  resolve _ specifier := specifier

def untilRoot : List (Label Nat Nat) :=
  [.request false 0, .advance, .advance, .bodyEnds .completes, .advance, .advance, .advance,
    .advance, .advance]

def BelowMissing (graph : Graph P S) (root : P) : Prop :=
  ∃ path message, graph.read path = .error message ∧
    Relation.ReflTransGen (fun p child => ∃ module, graph.read p = .ok module ∧
      ∃ entry ∈ module.imports, child = graph.resolve p entry.specifier) root path

end V12.ModuleLoader
