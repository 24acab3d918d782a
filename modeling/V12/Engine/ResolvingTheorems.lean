/-
V12.Engine.ResolvingTheorems — when a promise settles as the first call of its resolving
functions determines.

§1 is about what is determined: one outcome, which stays. §2 is the invariant of runs: a
promise has one pair whose first call decides, and a pending promise whose deciding
pair was called waits for a record or a job.
-/
import V12.Engine.Resolving

namespace V12.Resolving

variable {s : State} {pair p q obj i : Nat} {o : Outcome} {but : Nat → Prop} {f : First}

/-! ## §1 What is determined -/

theorem Determines.unique {o' : Outcome} (h : Determines s pair o) (h' : Determines s pair o') :
    o = o' := by
  induction h with
  | called hf hthen hpair ih =>
    cases h' with
    | called hf' hthen' hpair' =>
      rw [hf] at hf'
      cases hf'
      exact ih hpair'
    | _ => simp_all
  | _ => cases h' <;> simp_all

/-- The second state has every first call, job outcome and settlement of the first. -/
structure Extends (s s' : State) : Prop where
  first : ∀ pair f, s.first pair = some f → s'.first pair = some f
  state : ∀ p o, s.state p = some o → s'.state p = some o
  thenOutcome : ∀ pair o, s.thenOutcome pair = some o → s'.thenOutcome pair = some o

theorem Determines.mono {s' : State} (hext : Extends s s') (h : Determines s pair o) :
    Determines s' pair o := by
  induction h with
  | reject hf => exact .reject (hext.first _ _ hf)
  | plain hf => exact .plain (hext.first _ _ hf)
  | self hf => exact .self (hext.first _ _ hf)
  | promise hf hq => exact .promise (hext.first _ _ hf) (hext.state _ _ hq)
  | threw hf hthen => exact .threw (hext.first _ _ hf) (hext.thenOutcome _ _ hthen)
  | notCallable hf hthen => exact .notCallable (hext.first _ _ hf) (hext.thenOutcome _ _ hthen)
  | called hf hthen hpair ih => exact .called (hext.first _ _ hf) (hext.thenOutcome _ _ hthen) ih

/-! ## §2 The invariant -/

/-- The first call of the pair handed the decision to no further pair. -/
def Decides (s : State) (pair : Nat) : Prop :=
  ∀ child obj, s.first pair ≠ some (.thenable child obj)

/-- What the promise of a called pair waits for while it is pending. -/
def Waits (s : State) (pair : Nat) : First → Prop
  | .promise q => pair ∈ s.reactions q ∨ ∃ o, .adoption pair o ∈ s.jobs
  | .thenable child obj => .thenable child obj ∈ s.jobs ∨ s.thenOutcome child = some .called
  | _ => False

def Job.thenPair : Job → Option Nat
  | .thenable pair _ => some pair
  | .adoption _ _ => none

/-- The invariant; but for these pairs, whose promise is about to be settled or to wait. -/
structure Inv (but : Nat → Prop) (s : State) : Prop where
  /-- Pairs and promises that are not there yet. -/
  fresh : ∀ pair, s.pairs ≤ pair → s.first pair = none ∧ s.exposed pair = false ∧
    s.thenOutcome pair = none
  freshPromise : ∀ p, s.promises ≤ p → s.state p = none ∧ s.reactions p = []
  promiseOf : ∀ pair < s.pairs, s.promiseOf pair < s.promises
  root : ∀ p < s.promises, s.root p < s.pairs ∧ s.promiseOf (s.root p) = p
  /-- Every pair but the root was made by the first call of another. -/
  chain : ∀ pair < s.pairs, pair = s.root (s.promiseOf pair) ∨ ∃ parent < pair, ∃ obj,
    s.promiseOf parent = s.promiseOf pair ∧ s.first parent = some (.thenable pair obj)
  /-- One pair of each promise decides. -/
  decides : ∀ a < s.pairs, ∀ b < s.pairs, s.promiseOf a = s.promiseOf b → Decides s a →
    Decides s b → a = b
  /-- Only a pair in hand is called, and a job's pair is in hand once its `then` was called. -/
  used : ∀ pair, s.first pair ≠ none → s.exposed pair = true
  exposed : ∀ pair < s.pairs, s.exposed pair = true →
    pair = s.root (s.promiseOf pair) ∨ s.thenOutcome pair = some .called
  child : ∀ parent child obj, s.first parent = some (.thenable child obj) →
    child < s.pairs ∧ s.promiseOf child = s.promiseOf parent
  waits : ∀ pair < s.pairs, ¬ but pair → s.state (s.promiseOf pair) = none → ∀ f,
    s.first pair = some f → Waits s pair f
  opened : ∀ pair < s.pairs, s.exposed pair = true → s.first pair = none →
    s.state (s.promiseOf pair) = none
  records : ∀ q pair, pair ∈ s.reactions q → pair < s.pairs ∧ s.first pair = some (.promise q)
  drained : ∀ q, s.state q ≠ none → s.reactions q = []
  adoptions : ∀ pair o, .adoption pair o ∈ s.jobs → pair < s.pairs ∧
    ∃ q, s.first pair = some (.promise q) ∧ s.state q = some o
  thenables : ∀ pair obj, .thenable pair obj ∈ s.jobs → pair < s.pairs ∧
    s.exposed pair = false ∧ s.thenOutcome pair = none ∧
    s.state (s.promiseOf pair) = none ∧
    ∃ parent < s.pairs, s.first parent = some (.thenable pair obj) ∧
      s.promiseOf parent = s.promiseOf pair
  nodup : (s.jobs.filterMap Job.thenPair).Nodup
  values : ∀ p q, s.state p ≠ some (.fulfilled (.promise q))
  right : ∀ p < s.promises, ∀ o, s.state p = some o → Determines s (s.root p) o

theorem Inv.determines_root (h : Inv but s) (hpair : pair < s.pairs) (ho : Determines s pair o) :
    Determines s (s.root (s.promiseOf pair)) o := by
  induction pair using Nat.strongRecOn generalizing o with
  | ind pair ih =>
    rcases h.chain pair hpair with hroot | ⟨parent, hlt, obj, hsame, hfirst⟩
    · rw [← hroot]
      exact ho
    · have hcalled : s.thenOutcome pair = some .called ∨ pair = s.root (s.promiseOf pair) := by
        have hused : s.first pair ≠ none := by
          cases ho <;> simp_all
        exact (h.exposed pair hpair (h.used pair hused)).symm
      rcases hcalled with hcalled | hroot
      · rw [← hsame]
        exact ih parent hlt (Nat.lt_trans hlt hpair) (.called hfirst hcalled ho)
      · rw [← hroot]
        exact ho

def Nobody : Nat → Prop := fun _ => False

theorem Inv.lt_of_exposed (h : Inv but s) (hexposed : s.exposed pair = true) : pair < s.pairs := by
  by_contra hge
  have hnot := (h.fresh pair (Nat.le_of_not_lt hge)).2.1
  rw [hexposed] at hnot
  cases hnot

/-! ## §3 The operations -/

/-- What a settlement needs: the promise is pending, its own pair determines the outcome, and
nothing else can settle it. -/
structure Settles (but : Nat → Prop) (s : State) (p : Nat) (o : Outcome) : Prop where
  pending : s.state p = none
  known : p < s.promises
  only : ∀ pair, but pair → s.promiseOf pair = p
  determined : Determines s (s.root p) o
  opened : ∀ pair < s.pairs, s.exposed pair = true → s.first pair = none → s.promiseOf pair ≠ p
  thenables : ∀ pair obj, .thenable pair obj ∈ s.jobs → s.promiseOf pair ≠ p
  value : ∀ q, o ≠ .fulfilled (.promise q)

theorem settle_extends (hpending : s.state p = none) :
    Extends s (s.settle p o) where
  first _ _ h := h
  state q o' h := by
    have hne : q ≠ p := by
      rintro rfl
      rw [hpending] at h
      cases h
    simp only [State.settle]
    rw [Function.update_of_ne hne _ _]
    exact h
  thenOutcome _ _ h := h

theorem Inv.settle (h : Inv but s) (hs : Settles but s p o) : Inv Nobody (s.settle p o) := by
  have hext := settle_extends (o := o) hs.pending
  have hstate : ∀ q, q ≠ p → (s.settle p o).state q = s.state q := fun q hq =>
    Function.update_of_ne hq _ _
  have hself : (s.settle p o).state p = some o := Function.update_self _ _ _
  have hjobs : ∀ j ∈ s.jobs, j ∈ (s.settle p o).jobs := fun j hj => List.mem_append_left _ hj
  refine { h with
    freshPromise := ?_, waits := ?_, opened := ?_, records := ?_, drained := ?_, adoptions := ?_,
    thenables := ?_, nodup := ?_, values := ?_, right := ?_ }
  · intro q hq
    obtain ⟨hnone, hempty⟩ := h.freshPromise q hq
    have hne : q ≠ p := fun hqp => absurd hs.known (Nat.not_lt.mpr (hqp ▸ hq))
    refine ⟨by rw [hstate q hne, hnone], ?_⟩
    simp only [State.settle, Function.update_of_ne hne _ _, hempty]
  · intro pair hlt _ hpending f hf
    have hne : s.promiseOf pair ≠ p := by
      intro heq
      have hpending : (s.settle p o).state (s.promiseOf pair) = none := hpending
      rw [heq, hself] at hpending
      cases hpending
    have hwaits := h.waits pair hlt (fun hb => hne (hs.only pair hb))
      ((hstate _ hne).symm.trans hpending) f hf
    cases f with
    | promise q =>
      rcases hwaits with hrecord | ⟨o', hjob⟩
      · by_cases hq : q = p
        · -- Its record becomes a job.
          subst hq
          exact .inr ⟨o, List.mem_append_right _ (List.mem_map_of_mem hrecord)⟩
        · refine .inl ?_
          simp only [State.settle, Function.update_of_ne hq _ _]
          exact hrecord
      · exact .inr ⟨o', hjobs _ hjob⟩
    | thenable child obj => exact hwaits.imp_left (hjobs _)
    | _ => exact hwaits
  · intro pair hlt hexposed hfirst
    exact (hstate _ (hs.opened pair hlt hexposed hfirst)).trans (h.opened pair hlt hexposed hfirst)
  · intro q pair hmem
    by_cases hq : q = p
    · subst hq
      simp [State.settle] at hmem
    · simp only [State.settle, Function.update_of_ne hq _ _] at hmem
      exact h.records q pair hmem
  · intro q hsettled
    by_cases hq : q = p
    · subst hq
      simp [State.settle]
    · simp only [State.settle, Function.update_of_ne hq _ _] at hsettled ⊢
      exact h.drained q hsettled
  · intro pair o' hjob
    rcases List.mem_append.mp hjob with hjob | hjob
    · obtain ⟨hlt, q, hfirst, hq⟩ := h.adoptions pair o' hjob
      exact ⟨hlt, q, hfirst, hext.state q o' hq⟩
    · obtain ⟨pair', hmem, heq⟩ := List.mem_map.mp hjob
      cases heq
      obtain ⟨hlt, hfirst⟩ := h.records p pair hmem
      exact ⟨hlt, p, hfirst, hself⟩
  · intro pair obj hjob
    rcases List.mem_append.mp hjob with hjob | hjob
    · obtain ⟨hlt, hexposed, hthen, hpending, hparent⟩ := h.thenables pair obj hjob
      exact ⟨hlt, hexposed, hthen, (hstate _ (hs.thenables pair obj hjob)).trans hpending, hparent⟩
    · obtain ⟨pair', -, heq⟩ := List.mem_map.mp hjob
      cases heq
  · have hnone :
        ((s.reactions p).map fun pair => Job.adoption pair o).filterMap Job.thenPair = [] := by
      rw [List.filterMap_eq_nil_iff]
      intro j hj
      obtain ⟨pair, -, rfl⟩ := List.mem_map.mp hj
      rfl
    simp only [State.settle, List.filterMap_append, hnone, List.append_nil]
    exact h.nodup
  · intro q q'
    by_cases hq : q = p
    · subst hq
      rw [hself]
      intro heq
      exact hs.value q' (Option.some.inj heq)
    · rw [hstate q hq]
      exact h.values q q'
  · intro q hlt o' ho'
    by_cases hq : q = p
    · subst hq
      rw [hself] at ho'
      cases ho'
      exact hs.determined.mono hext
    · rw [hstate q hq] at ho'
      exact (h.right q hlt o' ho').mono hext

/-- The first call of a pair, which hands the decision to no further pair. -/
def State.setFirst (s : State) (pair : Nat) (f : First) : State :=
  { s with first := Function.update s.first pair (some f) }

theorem setFirst_extends (hfirst : s.first pair = none) :
    Extends s (s.setFirst pair f) where
  first pair' f' h := by
    have hne : pair' ≠ pair := by
      rintro rfl
      rw [hfirst] at h
      cases h
    simp only [State.setFirst]
    rw [Function.update_of_ne hne _ _]
    exact h
  state _ _ h := h
  thenOutcome _ _ h := h

theorem Inv.setFirst (h : Inv Nobody s) (hexposed : s.exposed pair = true)
    (hfirst : s.first pair = none) (hf : ∀ child obj, f ≠ .thenable child obj) :
    Inv (· = pair) (s.setFirst pair f) := by
  have hlt := h.lt_of_exposed hexposed
  have hext := setFirst_extends (f := f) hfirst
  have hself : (s.setFirst pair f).first pair = some f := Function.update_self _ _ _
  have hother : ∀ pair', pair' ≠ pair → (s.setFirst pair f).first pair' = s.first pair' :=
    fun pair' hne => Function.update_of_ne hne _ _
  -- The pair decided before, and decides now.
  have hdecides : ∀ pair', Decides (s.setFirst pair f) pair' → Decides s pair' := by
    intro pair' hd child obj hchild
    by_cases hne : pair' = pair
    · rw [hne, hfirst] at hchild
      cases hchild
    · exact hd child obj (by rw [hother pair' hne, hchild])
  refine { h with
    fresh := ?_, chain := ?_, decides := ?_, used := ?_, child := ?_, waits := ?_, opened := ?_,
    records := ?_, adoptions := ?_, thenables := ?_, right := ?_ }
  · intro pair' hge
    have hne : pair' ≠ pair := fun heq => absurd hlt (Nat.not_lt.mpr (heq ▸ hge))
    rw [hother pair' hne]
    exact h.fresh pair' hge
  · intro pair' hlt'
    rcases h.chain pair' hlt' with hroot | ⟨parent, hparent, obj, hsame, hpf⟩
    · exact .inl hroot
    · exact .inr ⟨parent, hparent, obj, hsame, hext.first _ _ hpf⟩
  · intro a ha b hb hsame hda hdb
    exact h.decides a ha b hb hsame (hdecides a hda) (hdecides b hdb)
  · intro pair' hused
    by_cases hne : pair' = pair
    · subst hne
      exact hexposed
    · exact h.used pair' (by rw [← hother pair' hne]; exact hused)
  · intro parent child obj hchild
    by_cases hne : parent = pair
    · subst hne
      rw [hself] at hchild
      exact absurd (Option.some.inj hchild) (hf child obj)
    · exact h.child parent child obj (by rw [← hother parent hne]; exact hchild)
  · intro pair' hlt' hne hpending f' hf'
    rw [hother pair' hne] at hf'
    exact h.waits pair' hlt' (fun hb => hb) hpending f' hf'
  · intro pair' hlt' hexposed' hnone
    by_cases hne : pair' = pair
    · subst hne
      rw [hself] at hnone
      cases hnone
    · exact h.opened pair' hlt' hexposed' (by rw [← hother pair' hne]; exact hnone)
  · intro q pair' hmem
    obtain ⟨hlt', hpf⟩ := h.records q pair' hmem
    exact ⟨hlt', hext.first _ _ hpf⟩
  · intro pair' o hjob
    obtain ⟨hlt', q, hpf, hq⟩ := h.adoptions pair' o hjob
    exact ⟨hlt', q, hext.first _ _ hpf, hq⟩
  · intro pair' obj hjob
    obtain ⟨hlt', hex, hthen, hpending, parent, hparent, hpf, hsame⟩ := h.thenables pair' obj hjob
    exact ⟨hlt', hex, hthen, hpending, parent, hparent, hext.first _ _ hpf, hsame⟩
  · intro q hq o ho
    exact (h.right q hq o ho).mono hext

theorem Inv.record (h : Inv (· = pair) s) (hlt : pair < s.pairs)
    (hfirst : s.first pair = some (.promise q)) (hq : s.state q = none) (hknown : q < s.promises) :
    Inv Nobody { s with reactions := Function.update s.reactions q (s.reactions q ++ [pair]) } := by
  have hext : Extends s
      { s with reactions := Function.update s.reactions q (s.reactions q ++ [pair]) } :=
    ⟨fun _ _ h => h, fun _ _ h => h, fun _ _ h => h⟩
  refine { h with
    freshPromise := ?_, waits := ?_, records := ?_, drained := ?_, right := ?_ }
  · intro p hp
    have hne : p ≠ q := fun heq => absurd hknown (Nat.not_lt.mpr (heq ▸ hp))
    refine ⟨(h.freshPromise p hp).1, ?_⟩
    simp only [Function.update_of_ne hne _ _, (h.freshPromise p hp).2]
  · intro pair' hlt' _ hpending f hf
    by_cases hne : pair' = pair
    · subst hne
      have hf : s.first pair' = some f := hf
      rw [hfirst] at hf
      cases hf
      exact .inl (by simp)
    · have hwaits := h.waits pair' hlt' hne hpending f hf
      cases f with
      | promise q' =>
        refine hwaits.imp_left fun hmem => ?_
        by_cases hq' : q' = q
        · subst hq'
          simpa using .inl hmem
        · simpa only [Function.update_of_ne hq' _ _] using hmem
      | _ => exact hwaits
  · intro p pair' hmem
    by_cases hp : p = q
    · subst hp
      simp only [Function.update_self] at hmem
      rcases List.mem_append.mp hmem with hmem | hmem
      · exact h.records p pair' hmem
      · obtain rfl := List.mem_singleton.mp hmem
        exact ⟨hlt, hfirst⟩
    · simp only [Function.update_of_ne hp _ _] at hmem
      exact h.records p pair' hmem
  · intro p hsettled
    have hp : p ≠ q := by
      rintro rfl
      exact hsettled hq
    simp only [Function.update_of_ne hp _ _]
    exact h.drained p hsettled
  · intro p hp o ho
    exact (h.right p hp o ho).mono hext

/-- The state after the first call of a pair met a thenable: a new pair decides in its place. -/
def State.handsOver (s : State) (pair obj : Nat) : State :=
  { s.startThenable (s.promiseOf pair) obj with
    first := Function.update s.first pair (some (.thenable s.pairs obj)) }

section HandsOver

variable {a obj : Nat}

theorem first_handsOver_self : (s.handsOver pair obj).first pair = some (.thenable s.pairs obj) :=
  Function.update_self _ _ _

theorem first_handsOver (ha : a ≠ pair) : (s.handsOver pair obj).first a = s.first a :=
  Function.update_of_ne ha _ _

theorem promiseOf_handsOver (ha : a < s.pairs) :
    (s.handsOver pair obj).promiseOf a = s.promiseOf a :=
  Function.update_of_ne (Nat.ne_of_lt ha) _ _

theorem promiseOf_handsOver_new : (s.handsOver pair obj).promiseOf s.pairs = s.promiseOf pair :=
  Function.update_self _ _ _

theorem lt_handsOver (ha : a < (s.handsOver pair obj).pairs) : a < s.pairs ∨ a = s.pairs :=
  Nat.lt_or_eq_of_le (Nat.lt_succ_iff.mp ha)

theorem extends_handsOver (hfirst : s.first pair = none) : Extends s (s.handsOver pair obj) := by
  refine ⟨fun a f hf => ?_, fun _ _ h => h, fun _ _ h => h⟩
  have ha : a ≠ pair := by
    rintro rfl
    rw [hfirst] at hf
    cases hf
  rw [first_handsOver ha, hf]

/-- The caller no longer decides, the new pair does. -/
theorem Inv.decides_handsOver (h : Inv Nobody s) (hlt : pair < s.pairs) (hfirst : s.first pair = none) :
    ∀ a < (s.handsOver pair obj).pairs, ∀ b < (s.handsOver pair obj).pairs,
      (s.handsOver pair obj).promiseOf a = (s.handsOver pair obj).promiseOf b →
        Decides (s.handsOver pair obj) a → Decides (s.handsOver pair obj) b → a = b := by
  have hold : ∀ a < s.pairs, Decides (s.handsOver pair obj) a → Decides s a ∧ a ≠ pair := by
    intro a ha hd
    have hne : a ≠ pair := by
      rintro rfl
      exact hd _ _ first_handsOver_self
    exact ⟨fun child obj' hchild => hd child obj' (by rw [first_handsOver hne, hchild]), hne⟩
  have hpair : Decides s pair := by
    intro child obj' hchild
    rw [hfirst] at hchild
    cases hchild
  intro a ha b hb hsame hda hdb
  rcases lt_handsOver ha with ha | rfl <;> rcases lt_handsOver hb with hb | rfl
  · rw [promiseOf_handsOver ha, promiseOf_handsOver hb] at hsame
    exact h.decides a ha b hb hsame (hold a ha hda).1 (hold b hb hdb).1
  · rw [promiseOf_handsOver ha, promiseOf_handsOver_new] at hsame
    exact absurd (h.decides a ha pair hlt hsame (hold a ha hda).1 hpair) (hold a ha hda).2
  · rw [promiseOf_handsOver hb, promiseOf_handsOver_new] at hsame
    exact absurd (h.decides b hb pair hlt hsame.symm (hold b hb hdb).1 hpair) (hold b hb hdb).2
  · rfl

theorem Inv.waits_handsOver (h : Inv Nobody s) (hlt : pair < s.pairs) :
    ∀ a < (s.handsOver pair obj).pairs, ¬ Nobody a →
      (s.handsOver pair obj).state ((s.handsOver pair obj).promiseOf a) = none →
        ∀ f, (s.handsOver pair obj).first a = some f → Waits (s.handsOver pair obj) a f := by
  have hjobs : ∀ j ∈ s.jobs, j ∈ (s.handsOver pair obj).jobs := fun j hj =>
    List.mem_append_left _ hj
  intro a ha _ hnone f hf
  rcases lt_handsOver ha with ha | rfl
  · by_cases hne : a = pair
    · subst hne
      rw [first_handsOver_self] at hf
      cases hf
      exact .inl (List.mem_append_right _ (by simp))
    · rw [first_handsOver hne] at hf
      rw [promiseOf_handsOver ha] at hnone
      have hwaits := h.waits a ha (fun hb => hb) hnone f hf
      cases f with
      | promise q => exact hwaits.imp_right fun ⟨o, hjob⟩ => ⟨o, hjobs _ hjob⟩
      | thenable child obj' => exact hwaits.imp_left (hjobs _)
      | _ => exact hwaits
  · rw [first_handsOver (Nat.ne_of_gt hlt), (h.fresh s.pairs (Nat.le_refl _)).1] at hf
    cases hf

theorem Inv.thenables_handsOver (h : Inv Nobody s) (hlt : pair < s.pairs)
    (hfirst : s.first pair = none) (hpending : s.state (s.promiseOf pair) = none) :
    ∀ a obj', .thenable a obj' ∈ (s.handsOver pair obj).jobs → a < (s.handsOver pair obj).pairs ∧
      s.exposed a = false ∧ s.thenOutcome a = none ∧
      s.state ((s.handsOver pair obj).promiseOf a) = none ∧
      ∃ parent < (s.handsOver pair obj).pairs,
        (s.handsOver pair obj).first parent = some (.thenable a obj') ∧
        (s.handsOver pair obj).promiseOf parent = (s.handsOver pair obj).promiseOf a := by
  have hnew := h.fresh s.pairs (Nat.le_refl _)
  intro a obj' hjob
  rcases List.mem_append.mp hjob with hjob | hjob
  · obtain ⟨ha, hex, hthen, hnone, parent, hparent, hpf, hsame⟩ := h.thenables a obj' hjob
    refine ⟨Nat.lt_succ_of_lt ha, hex, hthen, by rw [promiseOf_handsOver ha]; exact hnone, parent,
      Nat.lt_succ_of_lt hparent, (extends_handsOver hfirst).first _ _ hpf, ?_⟩
    rw [promiseOf_handsOver ha, promiseOf_handsOver hparent, hsame]
  · simp only [List.mem_singleton, Job.thenable.injEq] at hjob
    obtain ⟨rfl, rfl⟩ := hjob
    refine ⟨Nat.lt_succ_self _, hnew.2.1, hnew.2.2, by rw [promiseOf_handsOver_new]; exact hpending,
      pair, Nat.lt_succ_of_lt hlt, first_handsOver_self, ?_⟩
    rw [promiseOf_handsOver_new, promiseOf_handsOver hlt]

theorem Inv.nodup_handsOver (h : Inv Nobody s) :
    ((s.handsOver pair obj).jobs.filterMap Job.thenPair).Nodup := by
  have hfresh : s.pairs ∉ s.jobs.filterMap Job.thenPair := by
    intro hmem
    obtain ⟨j, hj, hpair⟩ := List.mem_filterMap.mp hmem
    cases j with
    | adoption a o => cases hpair
    | thenable a obj' =>
      cases hpair
      exact Nat.lt_irrefl _ (h.thenables _ obj' hj).1
  have hjobs : (s.handsOver pair obj).jobs.filterMap Job.thenPair =
      s.jobs.filterMap Job.thenPair ++ [s.pairs] := by
    simp [State.handsOver, State.startThenable, Job.thenPair]
  rw [hjobs, List.nodup_append]
  refine ⟨h.nodup, by simp, ?_⟩
  rintro a ha b hb rfl
  exact hfresh (List.mem_singleton.mp hb ▸ ha)

end HandsOver

theorem Inv.startThenable (h : Inv Nobody s) (hexposed : s.exposed pair = true)
    (hfirst : s.first pair = none) :
    Inv Nobody
      { s.startThenable (s.promiseOf pair) obj with
        first := Function.update s.first pair (some (.thenable s.pairs obj)) } := by
  have hlt := h.lt_of_exposed hexposed
  have hnew := h.fresh s.pairs (Nat.le_refl _)
  have hext : Extends s (s.handsOver pair obj) := extends_handsOver hfirst
  have hpending := h.opened pair hlt hexposed hfirst
  change Inv Nobody (s.handsOver pair obj)
  refine {
    fresh := ?_, freshPromise := h.freshPromise, promiseOf := ?_, root := ?_, chain := ?_,
    decides := h.decides_handsOver hlt hfirst, used := ?_, exposed := ?_, child := ?_,
    waits := h.waits_handsOver hlt, opened := ?_, records := ?_, drained := h.drained,
    adoptions := ?_, thenables := h.thenables_handsOver hlt hfirst hpending,
    nodup := h.nodup_handsOver, values := h.values, right := ?_ }
  · intro a ha
    have ha' : s.pairs ≤ a := Nat.le_of_succ_le ha
    rw [first_handsOver (Nat.ne_of_gt (Nat.lt_of_lt_of_le hlt ha'))]
    exact h.fresh a ha'
  · intro a ha
    rcases lt_handsOver ha with ha | rfl
    · rw [promiseOf_handsOver ha]
      exact h.promiseOf a ha
    · rw [promiseOf_handsOver_new]
      exact h.promiseOf pair hlt
  · intro p hp
    obtain ⟨hroot, hof⟩ := h.root p hp
    exact ⟨Nat.lt_succ_of_lt hroot, (promiseOf_handsOver hroot).trans hof⟩
  · intro a ha
    rcases lt_handsOver ha with ha | rfl
    · rw [promiseOf_handsOver ha]
      rcases h.chain a ha with hroot | ⟨parent, hparent, obj', hsame, hpf⟩
      · exact .inl hroot
      · refine .inr ⟨parent, hparent, obj', ?_, hext.first _ _ hpf⟩
        rw [promiseOf_handsOver (Nat.lt_trans hparent ha), hsame]
    · refine .inr ⟨pair, hlt, obj, ?_, first_handsOver_self⟩
      rw [promiseOf_handsOver hlt, promiseOf_handsOver_new]
  · intro a hused
    by_cases hne : a = pair
    · subst hne
      exact hexposed
    · exact h.used a (by rw [← first_handsOver hne]; exact hused)
  · intro a ha hex
    rcases lt_handsOver ha with ha | rfl
    · rw [promiseOf_handsOver ha]
      exact h.exposed a ha hex
    · exact absurd (hnew.2.1.symm.trans hex) Bool.false_ne_true
  · intro parent child obj' hchild
    by_cases hne : parent = pair
    · subst hne
      rw [first_handsOver_self] at hchild
      cases hchild
      exact ⟨Nat.lt_succ_self _, by rw [promiseOf_handsOver_new, promiseOf_handsOver hlt]⟩
    · rw [first_handsOver hne] at hchild
      obtain ⟨hchild_lt, hsame⟩ := h.child parent child obj' hchild
      have hparent : parent < s.pairs := h.lt_of_exposed (h.used parent (by rw [hchild]; simp))
      refine ⟨Nat.lt_succ_of_lt hchild_lt, ?_⟩
      rw [promiseOf_handsOver hchild_lt, promiseOf_handsOver hparent, hsame]
  · intro a ha hex hnone
    rcases lt_handsOver ha with ha | rfl
    · have hne : a ≠ pair := by
        rintro rfl
        rw [first_handsOver_self] at hnone
        cases hnone
      rw [promiseOf_handsOver ha]
      exact h.opened a ha hex (by rw [← first_handsOver hne]; exact hnone)
    · exact absurd (hnew.2.1.symm.trans hex) Bool.false_ne_true
  · intro q a hmem
    obtain ⟨ha, hpf⟩ := h.records q a hmem
    exact ⟨Nat.lt_succ_of_lt ha, hext.first _ _ hpf⟩
  · intro a o hjob
    rcases List.mem_append.mp hjob with hjob | hjob
    · obtain ⟨ha, q, hpf, hq⟩ := h.adoptions a o hjob
      exact ⟨Nat.lt_succ_of_lt ha, q, hext.first _ _ hpf, hq⟩
    · simp at hjob
  · intro p hp o ho
    exact (h.right p hp o ho).mono hext

theorem Inv.newPromise (h : Inv Nobody s) : Inv Nobody (newPromise s) := by
  have hnew := h.fresh s.pairs (Nat.le_refl _)
  have hnewPromise := h.freshPromise s.promises (Nat.le_refl _)
  let s' := V12.Resolving.newPromise s
  have hext : Extends s s' := ⟨fun _ _ h => h, fun _ _ h => h, fun _ _ h => h⟩
  have hpromise : ∀ a, a < s.pairs → s'.promiseOf a = s.promiseOf a := fun a ha =>
    Function.update_of_ne (Nat.ne_of_lt ha) _ _
  have hpromise_new : s'.promiseOf s.pairs = s.promises := Function.update_self ..
  have hroot : ∀ p, p < s.promises → s'.root p = s.root p := fun p hp =>
    Function.update_of_ne (Nat.ne_of_lt hp) _ _
  have hroot_new : s'.root s.promises = s.pairs := Function.update_self ..
  have hexposed : ∀ a, a ≠ s.pairs → s'.exposed a = s.exposed a := fun a ha =>
    Function.update_of_ne ha _ _
  have hcases : ∀ {a n : Nat}, a < n + 1 → a < n ∨ a = n := fun ha =>
    Nat.lt_or_eq_of_le (Nat.lt_succ_iff.mp ha)
  change Inv Nobody s'
  refine { h with
    fresh := ?_, freshPromise := ?_, promiseOf := ?_, root := ?_, chain := ?_, decides := ?_,
    used := ?_, exposed := ?_, child := ?_, waits := ?_, opened := ?_, records := ?_,
    adoptions := ?_, thenables := ?_, right := ?_ }
  · intro a ha
    have ha' : s.pairs ≤ a := Nat.le_of_succ_le ha
    have hne : a ≠ s.pairs := Nat.ne_of_gt ha
    obtain ⟨hfirst, hex, hthen⟩ := h.fresh a ha'
    exact ⟨hfirst, (hexposed a hne).trans hex, hthen⟩
  · intro p hp
    exact h.freshPromise p (Nat.le_of_succ_le hp)
  · intro a ha
    rcases hcases ha with ha | rfl
    · rw [hpromise a ha]
      exact Nat.lt_succ_of_lt (h.promiseOf a ha)
    · rw [hpromise_new]
      exact Nat.lt_succ_self _
  · intro p hp
    rcases hcases hp with hp | rfl
    · obtain ⟨hlt, hof⟩ := h.root p hp
      rw [hroot p hp]
      exact ⟨Nat.lt_succ_of_lt hlt, (hpromise _ hlt).trans hof⟩
    · rw [hroot_new]
      exact ⟨Nat.lt_succ_self _, hpromise_new⟩
  · intro a ha
    rcases hcases ha with ha | rfl
    · rw [hpromise a ha, hroot _ (h.promiseOf a ha)]
      rcases h.chain a ha with heq | ⟨parent, hparent, obj, hsame, hpf⟩
      · exact .inl heq
      · exact .inr ⟨parent, hparent, obj, (hpromise _ (Nat.lt_trans hparent ha)).trans hsame, hpf⟩
    · rw [hpromise_new, hroot_new]
      exact .inl rfl
  · intro a ha b hb hsame hda hdb
    rcases hcases ha with ha | rfl <;> rcases hcases hb with hb | rfl
    · rw [hpromise a ha, hpromise b hb] at hsame
      exact h.decides a ha b hb hsame hda hdb
    · rw [hpromise a ha, hpromise_new] at hsame
      exact absurd (h.promiseOf a ha) (by rw [hsame]; exact Nat.lt_irrefl _)
    · rw [hpromise b hb, hpromise_new] at hsame
      exact absurd (h.promiseOf b hb) (by rw [← hsame]; exact Nat.lt_irrefl _)
    · rfl
  · intro a hused
    have hne : a ≠ s.pairs := by
      rintro rfl
      exact hused hnew.1
    exact (hexposed a hne).trans (h.used a hused)
  · intro a ha hex
    rcases hcases ha with ha | rfl
    · rw [hpromise a ha, hroot _ (h.promiseOf a ha)]
      exact h.exposed a ha ((hexposed a (Nat.ne_of_lt ha)).symm.trans hex)
    · rw [hpromise_new, hroot_new]
      exact .inl rfl
  · intro parent child obj hchild
    obtain ⟨hlt, hsame⟩ := h.child parent child obj hchild
    have hchild : s.first parent = some (.thenable child obj) := hchild
    have hparent : parent < s.pairs := h.lt_of_exposed (h.used parent (by rw [hchild]; simp))
    exact ⟨Nat.lt_succ_of_lt hlt, by rw [hpromise child hlt, hpromise parent hparent, hsame]⟩
  · intro a ha _ hnone f hf
    rcases hcases ha with ha | rfl
    · rw [hpromise a ha] at hnone
      have hwaits := h.waits a ha (fun hb => hb) hnone f hf
      cases f <;> exact hwaits
    · have hf : s.first s.pairs = some f := hf
      rw [hnew.1] at hf
      cases hf
  · intro a ha hex hnone
    rcases hcases ha with ha | rfl
    · rw [hpromise a ha]
      exact h.opened a ha ((hexposed a (Nat.ne_of_lt ha)).symm.trans hex) hnone
    · rw [hpromise_new]
      exact hnewPromise.1
  · intro q a hmem
    obtain ⟨hlt, hpf⟩ := h.records q a hmem
    exact ⟨Nat.lt_succ_of_lt hlt, hpf⟩
  · intro a o hjob
    obtain ⟨hlt, q, hpf, hq⟩ := h.adoptions a o hjob
    exact ⟨Nat.lt_succ_of_lt hlt, q, hpf, hq⟩
  · intro a obj hjob
    obtain ⟨hlt, hex, hthen, hnone, parent, hparent, hpf, hsame⟩ := h.thenables a obj hjob
    refine ⟨Nat.lt_succ_of_lt hlt, (hexposed a (Nat.ne_of_lt hlt)).trans hex, hthen,
      by rw [hpromise a hlt]; exact hnone, parent, Nat.lt_succ_of_lt hparent, hpf, ?_⟩
    rw [hpromise a hlt, hpromise parent hparent, hsame]
  · intro p hp o ho
    rcases hcases hp with hp | rfl
    · rw [hroot p hp]
      exact (h.right p hp o ho).mono hext
    · have ho : s.state s.promises = some o := ho
      rw [hnewPromise.1] at ho
      cases ho

theorem mem_eraseIdx_of_ne {jobs : List Job} {j j' : Job} (hi : jobs[i]? = some j') (hj : j ∈ jobs)
    (hne : j ≠ j') : j ∈ jobs.eraseIdx i := by
  obtain ⟨k, hk⟩ := List.getElem?_of_mem hj
  refine List.mem_eraseIdx_iff_getElem?.mpr ⟨k, ?_, hk⟩
  rintro rfl
  rw [hi] at hk
  exact hne (Option.some.inj hk).symm

theorem Inv.takeAdoption (h : Inv Nobody s) (hi : s.jobs[i]? = some (.adoption pair o)) :
    Inv (· = pair) { s with jobs := s.jobs.eraseIdx i } := by
  have hmem : ∀ j ∈ s.jobs.eraseIdx i, j ∈ s.jobs := fun j hj => List.mem_of_mem_eraseIdx hj
  have hext : Extends s { s with jobs := s.jobs.eraseIdx i } :=
    ⟨fun _ _ h => h, fun _ _ h => h, fun _ _ h => h⟩
  refine { h with
    waits := ?_, adoptions := ?_, thenables := ?_, nodup := ?_, right := ?_ }
  · intro a ha hne hnone f hf
    have hwaits := h.waits a ha (fun hb => hb) hnone f hf
    cases f with
    | promise q =>
      refine hwaits.imp_right fun ⟨o', hjob⟩ => ⟨o', mem_eraseIdx_of_ne hi hjob ?_⟩
      intro heq
      cases heq
      exact hne rfl
    | thenable child obj => exact hwaits.imp_left fun hjob => mem_eraseIdx_of_ne hi hjob nofun
    | _ => exact hwaits
  · exact fun a o' hjob => h.adoptions a o' (hmem _ hjob)
  · exact fun a obj hjob => h.thenables a obj (hmem _ hjob)
  · exact h.nodup.sublist ((List.eraseIdx_sublist ..).filterMap _)
  · exact fun p hp o' ho => (h.right p hp o' ho).mono hext

def IsParent (s : State) (pair : Nat) : Nat → Prop :=
  fun parent => ∃ obj, s.first parent = some (.thenable pair obj)

theorem Inv.thenable_once (h : Inv but s) (hi : s.jobs[i]? = some (.thenable pair obj))
    (obj' : Nat) :
    .thenable pair obj' ∉ s.jobs.eraseIdx i := by
  intro hmem
  obtain ⟨before, after, hsplit, hlength⟩ := List.getElem?_eq_some_iff.mp hi |>.elim fun hlt heq =>
    (⟨s.jobs.take i, s.jobs.drop (i + 1), by rw [← heq]; simp, by simp [Nat.le_of_lt hlt]⟩ :
      ∃ before after, s.jobs = before ++ Job.thenable pair obj :: after ∧ before.length = i)
  have hnodup := h.nodup
  rw [hsplit, ← hlength] at hmem
  rw [hsplit] at hnodup
  simp only [List.eraseIdx_append_of_length_le (Nat.le_refl _), Nat.sub_self,
    List.eraseIdx_cons_zero] at hmem
  simp only [List.filterMap_append, List.filterMap_cons, Job.thenPair] at hnodup
  have hpair : pair ∈ before.filterMap Job.thenPair ++ after.filterMap Job.thenPair := by
    rw [← List.filterMap_append]
    exact List.mem_filterMap.mpr ⟨_, hmem, rfl⟩
  obtain ⟨-, hafter, hdisjoint⟩ := List.nodup_append.mp hnodup
  rcases List.mem_append.mp hpair with hpair | hpair
  · exact hdisjoint pair hpair pair (List.mem_cons_self ..) rfl
  · exact (List.nodup_cons.mp hafter).1 hpair

/-- The job of a thenable ran up to the call of its `then`. -/
def State.takeThenable (s : State) (i pair : Nat) (outcome : ThenOutcome) : State :=
  { s with
    jobs := s.jobs.eraseIdx i
    thenOutcome := Function.update s.thenOutcome pair (some outcome) }

theorem Inv.takeThenable (h : Inv Nobody s) (outcome : ThenOutcome)
    (hi : s.jobs[i]? = some (.thenable pair obj)) :
    Inv (IsParent s pair) (s.takeThenable i pair outcome) := by
  obtain ⟨hlt, hunexposed, hnone, -⟩ := h.thenables pair obj (List.mem_of_getElem? hi)
  have hmem : ∀ j ∈ s.jobs.eraseIdx i, j ∈ s.jobs := fun j hj => List.mem_of_mem_eraseIdx hj
  have hself : (s.takeThenable i pair outcome).thenOutcome pair = some outcome :=
    Function.update_self ..
  have hother : ∀ a, a ≠ pair →
      (s.takeThenable i pair outcome).thenOutcome a = s.thenOutcome a := fun a ha =>
    Function.update_of_ne ha _ _
  have hext : Extends s (s.takeThenable i pair outcome) := by
    refine ⟨fun _ _ h => h, fun _ _ h => h, fun a o ho => ?_⟩
    rw [hother a, ho]
    rintro rfl
    rw [hnone] at ho
    cases ho
  refine { h with
    fresh := ?_, exposed := ?_, waits := ?_, adoptions := ?_, thenables := ?_, nodup := ?_,
    right := ?_ }
  · intro a ha
    obtain ⟨hfirst, hex, hthen⟩ := h.fresh a ha
    have hne : a ≠ pair := fun heq => absurd hlt (Nat.not_lt.mpr (heq ▸ ha))
    exact ⟨hfirst, hex, (hother a hne).trans hthen⟩
  · intro a ha hex
    have hne : a ≠ pair := by
      rintro rfl
      have hex : s.exposed a = true := hex
      rw [hunexposed] at hex
      cases hex
    exact (h.exposed a ha hex).imp_right (hother a hne).trans
  · intro a ha hnot hpending f hf
    have hf : s.first a = some f := hf
    have hwaits := h.waits a ha (fun hb => hb) hpending f hf
    cases f with
    | promise q =>
      exact hwaits.imp_right fun ⟨o, hjob⟩ => ⟨o, mem_eraseIdx_of_ne hi hjob nofun⟩
    | thenable child obj' =>
      have hne : child ≠ pair := by
        rintro rfl
        exact hnot ⟨obj', hf⟩
      refine hwaits.imp (fun hjob => mem_eraseIdx_of_ne hi hjob ?_) (hother child hne).trans
      intro heq
      cases heq
      exact hne rfl
    | _ => exact hwaits
  · exact fun a o hjob => h.adoptions a o (hmem _ hjob)
  · intro a obj' hjob
    have hne : a ≠ pair := by
      rintro rfl
      exact h.thenable_once hi obj' hjob
    obtain ⟨ha, hex, hthen, hrest⟩ := h.thenables a obj' (hmem _ hjob)
    exact ⟨ha, hex, (hother a hne).trans hthen, hrest⟩
  · exact h.nodup.sublist ((List.eraseIdx_sublist ..).filterMap _)
  · exact fun p hp o ho => (h.right p hp o ho).mono hext

theorem Inv.exposePair (h : Inv Nobody s) (hi : s.jobs[i]? = some (.thenable pair obj)) :
    Inv Nobody
      { s.takeThenable i pair .called with
        exposed := Function.update s.exposed pair true } := by
  obtain ⟨hlt, hunexposed, -, hpending, -⟩ := h.thenables pair obj (List.mem_of_getElem? hi)
  have htaken := h.takeThenable .called hi
  have hcalled : (s.takeThenable i pair .called).thenOutcome pair = some .called :=
    Function.update_self ..
  have hself : Function.update s.exposed pair true pair = true := Function.update_self ..
  have hother : ∀ a, a ≠ pair → Function.update s.exposed pair true a = s.exposed a :=
    fun a ha => Function.update_of_ne ha _ _
  have hext : Extends (s.takeThenable i pair .called)
      { s.takeThenable i pair .called with exposed := Function.update s.exposed pair true } :=
    ⟨fun _ _ h => h, fun _ _ h => h, fun _ _ h => h⟩
  refine { htaken with
    fresh := ?_, used := ?_, exposed := ?_, waits := ?_, opened := ?_, thenables := ?_,
    right := ?_ }
  · intro a ha
    obtain ⟨hfirst, hex, hthen⟩ := htaken.fresh a ha
    have hne : a ≠ pair := fun heq => absurd hlt (Nat.not_lt.mpr (heq ▸ ha))
    exact ⟨hfirst, (hother a hne).trans hex, hthen⟩
  · intro a hused
    by_cases hne : a = pair
    · rw [hne]
      exact hself
    · exact (hother a hne).trans (htaken.used a hused)
  · intro a ha hex
    by_cases hne : a = pair
    · subst hne
      exact .inr hcalled
    · exact htaken.exposed a ha ((hother a hne).symm.trans hex)
  · intro a ha _ hnone f hf
    by_cases hparent : IsParent s pair a
    · obtain ⟨obj', hfirst⟩ := hparent
      have hf : s.first a = some f := hf
      rw [hfirst] at hf
      cases hf
      exact .inr hcalled
    · have hwaits := htaken.waits a ha hparent hnone f hf
      cases f <;> exact hwaits
  · intro a ha hex hfirst
    by_cases hne : a = pair
    · subst hne
      exact hpending
    · exact htaken.opened a ha ((hother a hne).symm.trans hex) hfirst
  · intro a obj' hjob
    have hne : a ≠ pair := by
      rintro rfl
      exact h.thenable_once hi obj' hjob
    obtain ⟨ha, hex, hrest⟩ := htaken.thenables a obj' hjob
    exact ⟨ha, (hother a hne).trans hex, hrest⟩
  · exact fun p hp o ho => (htaken.right p hp o ho).mono hext

theorem Inv.settles (h : Inv but s) (hpair : pair < s.pairs) (hdecides : Decides s pair)
    (hpending : s.state (s.promiseOf pair) = none)
    (hdetermined : Determines s (s.root (s.promiseOf pair)) o)
    (honly : ∀ a, but a → s.promiseOf a = s.promiseOf pair)
    (hused : s.exposed pair = true → s.first pair ≠ none)
    (hjob : ∀ obj, .thenable pair obj ∉ s.jobs) (hvalue : ∀ q, o ≠ .fulfilled (.promise q)) :
    Settles but s (s.promiseOf pair) o where
  pending := hpending
  known := h.promiseOf pair hpair
  only := honly
  determined := hdetermined
  opened a ha hex hfirst hsame := by
    have hd : Decides s a := fun child obj hchild => by
      rw [hfirst] at hchild
      cases hchild
    obtain rfl := h.decides a ha pair hpair hsame hd hdecides
    exact hused hex hfirst
  thenables a obj hmem hsame := by
    obtain ⟨ha, hex, -⟩ := h.thenables a obj hmem
    have hd : Decides s a := fun child obj' hchild => by
      have hin := h.used a (by rw [hchild]; simp)
      rw [hex] at hin
      cases hin
    obtain rfl := h.decides a ha pair hpair hsame hd hdecides
    exact hjob obj hmem
  value := hvalue

/-! ## §4 Calls and jobs -/

theorem settleWithAdoption_settled (value : Value) (rejecting mayAdopt : Bool)
    (h : s.state (s.promiseOf pair) ≠ none) :
    s.settleWithAdoption pair value rejecting mayAdopt = s := by
  cases hstate : s.state (s.promiseOf pair) with
  | none => exact absurd hstate h
  | some o => simp only [State.settleWithAdoption, hstate]

theorem Inv.settleFirst (h : Inv Nobody s) (hexposed : s.exposed pair = true)
    (hfirst : s.first pair = none) (hf : ∀ child obj, f ≠ .thenable child obj)
    (hdetermines : (s.setFirst pair f).first pair = some f → Determines (s.setFirst pair f) pair o)
    (hvalue : ∀ q, o ≠ .fulfilled (.promise q)) :
    Inv Nobody ((s.setFirst pair f).settle (s.promiseOf pair) o) := by
  have hself : (s.setFirst pair f).first pair = some f := Function.update_self ..
  have hinv := h.setFirst hexposed hfirst hf
  have hlt := h.lt_of_exposed hexposed
  refine hinv.settle (hinv.settles hlt ?_ (h.opened pair hlt hexposed hfirst) ?_ ?_ ?_ ?_ hvalue)
  · intro child obj hchild
    rw [hself] at hchild
    exact hf child obj (Option.some.inj hchild)
  · exact hinv.determines_root hlt (hdetermines hself)
  · rintro a rfl
    rfl
  · intro _ hnone
    rw [hself] at hnone
    cases hnone
  · intro obj hjob
    have hunexposed := (h.thenables pair obj hjob).2.1
    rw [hexposed] at hunexposed
    cases hunexposed

/-- **The first call** of a pair keeps the invariant. -/
theorem Inv.firstCall (h : Inv Nobody s) (value : Value) (rejecting : Bool)
    (hexposed : s.exposed pair = true) (hknown : s.Known value) (hfirst : s.first pair = none) :
    Inv Nobody
      { s.settleWithAdoption pair value rejecting true with
        first := Function.update s.first pair (some (s.classify pair value rejecting)) } := by
  have hpending := h.opened pair (h.lt_of_exposed hexposed) hexposed hfirst
  cases rejecting with
  | true =>
    simp only [State.settleWithAdoption, hpending, State.classify, if_true]
    exact h.settleFirst (o := .rejected value) hexposed hfirst nofun .reject nofun
  | false =>
    -- A value that is no promise and has no `then`.
    have hplain : ∀ v, (∀ q, v ≠ .promise q) →
        Inv Nobody ((s.setFirst pair (.plain v)).settle (s.promiseOf pair) (.fulfilled v)) :=
      fun v hv => h.settleFirst hexposed hfirst nofun .plain fun q heq =>
        hv q (Outcome.fulfilled.inj heq)
    simp only [State.settleWithAdoption, hpending, State.classify, Bool.false_eq_true, if_false,
      Bool.true_and]
    cases value with
    | undefined => exact hplain _ nofun
    | typeError => exact hplain _ nofun
    | other n => exact hplain _ nofun
    | object obj =>
      cases hthen : s.hasThen obj with
      | true =>
        simp only [if_true, hthen]
        exact h.startThenable hexposed hfirst
      | false =>
        simp only [Bool.false_eq_true, if_false, hthen]
        exact hplain _ nofun
    | promise q =>
      by_cases hself : q = s.promiseOf pair
      · simp only [hself, if_true]
        exact h.settleFirst (o := .rejected .typeError) hexposed hfirst nofun .self nofun
      · simp only [hself, if_false]
        cases hq : s.state q with
        | some o =>
          refine h.settleFirst hexposed hfirst nofun (fun hf => .promise hf hq) fun q' heq => ?_
          rw [heq] at hq
          exact h.values q q' hq
        | none =>
          exact (h.setFirst (f := .promise q) hexposed hfirst nofun).record
            (h.lt_of_exposed hexposed) (Function.update_self ..) hq hknown

def State.Adoptable (s : State) : Value → Prop
  | .promise _ => True
  | .object obj => s.hasThen obj = true
  | _ => False

instance (s : State) (v : Value) : Decidable (s.Adoptable v) :=
  match v with
  | .promise _ => isTrue trivial
  | .object obj => inferInstanceAs (Decidable (s.hasThen obj = true))
  | .undefined | .typeError | .other _ => isFalse nofun

theorem settleWithAdoption_plain {v : Value} (mayAdopt : Bool)
    (hpending : s.state (s.promiseOf pair) = none) (hv : ¬ s.Adoptable v) :
    s.settleWithAdoption pair v false mayAdopt = s.settle (s.promiseOf pair) (.fulfilled v) := by
  cases v with
  | promise q => exact absurd trivial hv
  | object obj =>
    have hthen : s.hasThen obj = false := by
      simpa [State.Adoptable] using hv
    simp [State.settleWithAdoption, hpending, hthen]
  | _ => simp [State.settleWithAdoption, hpending]

theorem settleWithAdoption_reject {e : Value} (mayAdopt : Bool)
    (hpending : s.state (s.promiseOf pair) = none) :
    s.settleWithAdoption pair e true mayAdopt = s.settle (s.promiseOf pair) (.rejected e) := by
  simp [State.settleWithAdoption, hpending]

theorem settle_state (s : State) (p : Nat) (o : Outcome) : (s.settle p o).state p = some o :=
  Function.update_self ..

/-- **An adoption's job** keeps the invariant when what it delivers is not adopted again: after
its first call of the pair the second finds the promise settled. -/
theorem Inv.runAdoption (h : Inv Nobody s) (hi : s.jobs[i]? = some (.adoption pair o))
    (hmet : ∀ v, o = .fulfilled v → s.state (s.promiseOf pair) = none → ¬ s.Adoptable v) :
    Inv Nobody (runAdoption { s with jobs := s.jobs.eraseIdx i } pair o) := by
  have htaken := h.takeAdoption hi
  obtain ⟨hlt, q, hfirst, hq⟩ := h.adoptions pair o (List.mem_of_getElem? hi)
  let s₁ : State := { s with jobs := s.jobs.eraseIdx i }
  by_cases hpending : s.state (s.promiseOf pair) = none
  · have hsettled : Inv Nobody (s₁.settle (s.promiseOf pair) o) := by
      refine htaken.settle (htaken.settles hlt ?_ hpending ?_ ?_ ?_ ?_ ?_)
      · intro child obj hchild
        have hchild : s.first pair = some (.thenable child obj) := hchild
        rw [hfirst] at hchild
        cases hchild
      · exact htaken.determines_root hlt (.promise hfirst hq)
      · rintro a rfl
        rfl
      · intro _ hnone
        have hnone : s.first pair = none := hnone
        rw [hfirst] at hnone
        cases hnone
      · intro obj hjob
        have hunexposed := (htaken.thenables pair obj hjob).2.1
        rw [htaken.used pair (by simp [hfirst])] at hunexposed
        cases hunexposed
      · rintro q' rfl
        exact h.values q q' hq
    have hnot : ∀ o', (s₁.settle (s.promiseOf pair) o').state
        ((s₁.settle (s.promiseOf pair) o').promiseOf pair) ≠ none := by
      intro o' hnone
      have hstate := settle_state s₁ (s.promiseOf pair) o'
      rw [show (s₁.settle (s.promiseOf pair) o').state (s.promiseOf pair) = none from hnone]
        at hstate
      cases hstate
    cases o with
    | fulfilled v =>
      have hv : ¬ s₁.Adoptable v := hmet v rfl hpending
      simp only [V12.Resolving.runAdoption]
      rw [settleWithAdoption_plain (s := s₁) true hpending hv,
        settleWithAdoption_settled _ _ _ (hnot _)]
      exact hsettled
    | rejected e =>
      simp only [V12.Resolving.runAdoption]
      rw [settleWithAdoption_reject (s := s₁) true hpending,
        settleWithAdoption_settled _ _ _ (hnot _)]
      exact hsettled
  · have hsame : V12.Resolving.runAdoption s₁ pair o = s₁ := by
      cases o with
      | fulfilled v =>
        simp only [V12.Resolving.runAdoption]
        rw [settleWithAdoption_settled (s := s₁) _ _ _ hpending,
          settleWithAdoption_settled (s := s₁) _ _ _ hpending]
      | rejected e =>
        simp only [V12.Resolving.runAdoption]
        rw [settleWithAdoption_settled (s := s₁) _ _ _ hpending,
          settleWithAdoption_settled (s := s₁) _ _ _ hpending]
    rw [hsame]
    refine { htaken with waits := ?_ }
    intro a ha _ hnone f hf
    have hne : a ≠ pair := by
      rintro rfl
      exact hpending hnone
    exact htaken.waits a ha hne hnone f hf

/-- **A thenable's job** keeps the invariant. -/
theorem Inv.runThenable (h : Inv Nobody s) (outcome : ThenOutcome)
    (hi : s.jobs[i]? = some (.thenable pair obj)) :
    Inv Nobody (runThenable { s with jobs := s.jobs.eraseIdx i } pair obj outcome) := by
  obtain ⟨hlt, hunexposed, -, hpending, parent, hparent, hfirst, hsame⟩ :=
    h.thenables pair obj (List.mem_of_getElem? hi)
  have htaken := h.takeThenable outcome hi
  have hthen : (s.takeThenable i pair outcome).thenOutcome pair = some outcome :=
    Function.update_self ..
  have hsettled : ∀ o, Determines (s.takeThenable i pair outcome) parent o →
      (∀ q, o ≠ .fulfilled (.promise q)) →
      Inv Nobody ((s.takeThenable i pair outcome).settle (s.promiseOf pair) o) := by
    intro o hdetermines hvalue
    refine htaken.settle (htaken.settles hlt ?_ hpending ?_ ?_ ?_ ?_ hvalue)
    · intro child obj' hchild
      have hin := htaken.used pair (by rw [hchild]; simp)
      have hin : s.exposed pair = true := hin
      rw [hunexposed] at hin
      cases hin
    · have hroot := htaken.determines_root hparent hdetermines
      rwa [show (s.takeThenable i pair outcome).promiseOf parent = s.promiseOf pair from hsame]
        at hroot
    · rintro a ⟨obj', ha⟩
      exact (h.child a pair obj' ha).2.symm
    · intro hin
      have hin : s.exposed pair = true := hin
      rw [hunexposed] at hin
      cases hin
    · exact h.thenable_once hi
  cases outcome with
  | threw e =>
    have hstep := hsettled (.rejected e) (.threw hfirst hthen) nofun
    simp only [V12.Resolving.runThenable, State.settleWithAdoption, hpending, if_true]
    exact hstep
  | notCallable =>
    have hstep := hsettled (.fulfilled (.object obj)) (.notCallable hfirst hthen) nofun
    simp only [V12.Resolving.runThenable, State.settleWithAdoption, hpending, Bool.false_eq_true,
      if_false, Bool.false_and]
    exact hstep
  | called => exact h.exposePair hi

/-! ## §5 Runs -/

/-- **What is determined happens**: with no job left no promise waits for what is settled. -/
theorem Inv.quiet (h : Inv Nobody s) (hjobs : s.jobs = []) (hpair : pair < s.pairs)
    (hdetermines : Determines s pair o) :
    s.state (s.promiseOf pair) ≠ none := by
  intro hnone
  have hwaits := h.waits pair hpair (fun hb => hb) hnone
  induction hdetermines with
  | reject hf => exact hwaits _ hf
  | plain hf => exact hwaits _ hf
  | self hf => exact hwaits _ hf
  | promise hf hq =>
    rcases hwaits _ hf with hrecord | ⟨o', hjob⟩
    · rw [h.drained _ (by simp [hq])] at hrecord
      cases hrecord
    · rw [hjobs] at hjob
      cases hjob
  | threw hf hthen =>
    rcases hwaits _ hf with hjob | hcalled
    · rw [hjobs] at hjob
      cases hjob
    · rw [hthen] at hcalled
      cases hcalled
  | notCallable hf hthen =>
    rcases hwaits _ hf with hjob | hcalled
    · rw [hjobs] at hjob
      cases hjob
    · rw [hthen] at hcalled
      cases hcalled
  | called hf hthen hchild ih =>
    obtain ⟨hlt, hsame⟩ := h.child _ _ _ hf
    rw [← hsame] at hnone
    exact ih hlt hnone (h.waits _ hlt (fun hb => hb) hnone)

theorem settle_once {o' : Outcome} (hpending : s.state p = none) (h : s.state q = some o') :
    (s.settle p o).state q = some o' :=
  (settle_extends hpending).state q o' h

theorem settleWithAdoption_once (pair : Nat) (value : Value) (rejecting mayAdopt : Bool)
    (h : s.state q = some o) :
    (s.settleWithAdoption pair value rejecting mayAdopt).state q = some o := by
  cases hpending : s.state (s.promiseOf pair) with
  | some o' =>
    rw [settleWithAdoption_settled value rejecting mayAdopt (by simp [hpending])]
    exact h
  | none =>
    simp only [State.settleWithAdoption, hpending]
    cases rejecting with
    | true => exact settle_once hpending h
    | false =>
      cases value with
      | promise q' =>
        by_cases hself : q' = s.promiseOf pair
        · simp only [Bool.false_eq_true, if_false, hself, if_true]
          exact settle_once hpending h
        · simp only [Bool.false_eq_true, if_false, hself]
          cases hq : s.state q' with
          | some o' => exact settle_once hpending h
          | none => exact h
      | object obj =>
        simp only [Bool.false_eq_true, if_false]
        cases mayAdopt && s.hasThen obj with
        | true => exact h
        | false => exact settle_once hpending h
      | _ => exact settle_once hpending h

theorem step_once (s : State) (l : Label) (h : s.state p = some o) :
    (step s l).state p = some o := by
  cases l with
  | newPromise => exact h
  | heap hasThen => exact h
  | call pair value rejecting =>
    simp only [step, call]
    by_cases hin : s.exposed pair = true ∧ s.Known value
    · rw [if_pos hin]
      cases s.first pair with
      | none => exact settleWithAdoption_once pair value rejecting true h
      | some f => exact settleWithAdoption_once pair value rejecting true h
    · rw [if_neg hin]
      exact h
  | run i outcome =>
    simp only [step]
    let s₁ : State := { s with jobs := s.jobs.eraseIdx i }
    cases s.jobs[i]? with
    | none => exact h
    | some job =>
      cases job with
      | adoption pair o' =>
        cases o' with
        | fulfilled v =>
          have hfirst := settleWithAdoption_once (s := s₁) pair v false true h
          exact settleWithAdoption_once pair .undefined false true hfirst
        | rejected e =>
          have hfirst := settleWithAdoption_once (s := s₁) pair e true true h
          exact settleWithAdoption_once pair .undefined false true hfirst
      | thenable pair obj =>
        cases outcome with
        | threw e => exact settleWithAdoption_once (s := s.takeThenable i pair (.threw e)) _ _ _ _ h
        | notCallable =>
          exact settleWithAdoption_once (s := s.takeThenable i pair .notCallable) _ _ _ _ h
        | called => exact h

/-- What a label must meet: a call after the first of its pair comes when the promise is
settled; and what an adoption delivers to a pending promise is not adopted again. -/
def Met (s : State) : Label → Prop
  | .call pair value _ => s.exposed pair = true → s.Known value → s.first pair ≠ none →
    s.state (s.promiseOf pair) ≠ none
  | .run i _ => ∀ pair v, s.jobs[i]? = some (.adoption pair (.fulfilled v)) →
    s.state (s.promiseOf pair) = none → ¬ s.Adoptable v
  | _ => True

theorem Inv.step (h : Inv Nobody s) (l : Label) (hmet : Met s l) :
    Inv Nobody (step s l) := by
  cases l with
  | newPromise => exact h.newPromise
  | heap hasThen =>
    have hext : Extends s { s with hasThen } := ⟨fun _ _ h => h, fun _ _ h => h, fun _ _ h => h⟩
    exact { h with
      waits := fun pair hlt hb hnone f hf => by
        have hwaits := h.waits pair hlt hb hnone f hf
        cases f <;> exact hwaits
      right := fun p hp o ho => (h.right p hp o ho).mono hext }
  | call pair value rejecting =>
    simp only [V12.Resolving.step, call]
    by_cases hin : s.exposed pair = true ∧ s.Known value
    · rw [if_pos hin]
      cases hfirst : s.first pair with
      | none => exact h.firstCall value rejecting hin.1 hin.2 hfirst
      | some f =>
        have hsettled := hmet hin.1 hin.2 (by simp [hfirst])
        rw [settleWithAdoption_settled _ _ _ hsettled]
        exact h
    · rw [if_neg hin]
      exact h
  | run i outcome =>
    simp only [V12.Resolving.step]
    cases hi : s.jobs[i]? with
    | none => exact h
    | some job =>
      cases job with
      | adoption pair o =>
        refine h.runAdoption hi ?_
        rintro v rfl hpending
        exact hmet pair v hi hpending
      | thenable pair obj => exact h.runThenable outcome hi

theorem call_effect (value : Value) (rejecting : Bool)
    (hpending : s.state (s.promiseOf pair) = none) :
    ¬ NoEffect s (s.settleWithAdoption pair value rejecting true) := by
  have hsettle : ∀ o, ¬ NoEffect s (s.settle (s.promiseOf pair) o) := by
    intro o heffect
    have hstate := settle_state s (s.promiseOf pair) o
    rw [heffect.state, hpending] at hstate
    cases hstate
  simp only [State.settleWithAdoption, hpending]
  cases rejecting with
  | true => exact hsettle _
  | false =>
    cases value with
    | promise q =>
      by_cases hself : q = s.promiseOf pair
      · simp only [Bool.false_eq_true, if_false, hself, if_true]
        exact hsettle _
      · simp only [Bool.false_eq_true, if_false, hself]
        cases hq : s.state q with
        | some o => exact hsettle o
        | none =>
          intro heffect
          have hrecords := congrFun heffect.reactions q
          simp at hrecords
    | object obj =>
      cases hthen : s.hasThen obj with
      | true =>
        intro heffect
        have hjobs := heffect.jobs
        simp [State.startThenable, hthen] at hjobs
      | false =>
        simp only [Bool.false_eq_true, if_false, hthen, Bool.and_false]
        exact hsettle _
    | undefined => exact hsettle _
    | typeError => exact hsettle _
    | other n => exact hsettle _

theorem Inv.runAdoption_adoptable (h : Inv Nobody s) {v : Value} (outcome : ThenOutcome)
    (hi : s.jobs[i]? = some (.adoption pair (.fulfilled v)))
    (hpending : s.state (s.promiseOf pair) = none) (hv : s.Adoptable v) :
    ¬ Good s (.run i outcome) := by
  intro hgood
  obtain ⟨hlt, q, hfirst, hq⟩ := h.adoptions pair _ (List.mem_of_getElem? hi)
  have hroot := h.determines_root hlt (.promise hfirst hq)
  cases v with
  | promise q' => exact h.values q q' hq
  | object obj =>
    have hthen : s.hasThen obj = true := hv
    let s₁ : State := { s with jobs := s.jobs.eraseIdx i }
    let s₂ : State := s₁.startThenable (s.promiseOf pair) obj
    have hpromise : s₂.promiseOf pair = s.promiseOf pair :=
      Function.update_of_ne (Nat.ne_of_lt hlt) _ _
    have hpending₂ : s₂.state (s₂.promiseOf pair) = none := by
      rw [hpromise]
      exact hpending
    have hstep : V12.Resolving.step s (.run i outcome) =
        s₂.settle (s.promiseOf pair) (.fulfilled .undefined) := by
      simp only [V12.Resolving.step, hi, V12.Resolving.runAdoption]
      have hcall : s₁.settleWithAdoption pair (.object obj) false true = s₂ := by
        simp [s₁, s₂, State.settleWithAdoption, hpending, hthen]
      rw [hcall, settleWithAdoption_plain true hpending₂ (by simp [State.Adoptable]), hpromise]
    have hext : Extends s (s₂.settle (s.promiseOf pair) (.fulfilled .undefined)) :=
      ⟨fun _ _ h => h, fun q' o ho => settle_once (s := s₂) hpending ho, fun _ _ h => h⟩
    have hright := hgood.right
    rw [hstep] at hright
    have hundefined := hright _ (h.promiseOf pair hlt) _ (settle_state ..)
    have heq := (hroot.mono hext).unique hundefined
    cases heq
  | undefined => exact hv
  | typeError => exact hv
  | other n => exact hv

/-- **One label** does what it should exactly when it meets the condition. -/
theorem step_good_iff (h : Inv Nobody s) (l : Label) : Good s l ↔ Met s l := by
  constructor
  · intro hgood
    cases l with
    | newPromise => trivial
    | heap hasThen => trivial
    | call pair value rejecting =>
      intro hexposed hknown hfirst hpending
      have heffect := hgood.second pair value rejecting rfl hfirst
      have hstep : step s (.call pair value rejecting) =
          s.settleWithAdoption pair value rejecting true := by
        simp only [step, call, if_pos (And.intro hexposed hknown)]
        cases hf : s.first pair with
        | none => exact absurd hf hfirst
        | some f => rfl
      rw [hstep] at heffect
      exact call_effect value rejecting hpending heffect
    | run i outcome =>
      intro pair v hi hpending hv
      exact h.runAdoption_adoptable outcome hi hpending hv hgood
  · intro hmet
    have hnext := h.step l hmet
    refine ⟨fun p o ho => step_once s l ho, ?_, hnext.right, ?_⟩
    · rintro pair value rejecting rfl hfirst
      simp only [step, call]
      by_cases hin : s.exposed pair = true ∧ s.Known value
      · rw [if_pos hin]
        cases hf : s.first pair with
        | none => exact absurd hf hfirst
        | some f =>
          rw [settleWithAdoption_settled _ _ _ (hmet hin.1 hin.2 hfirst)]
          exact ⟨rfl, rfl, rfl⟩
      · rw [if_neg hin]
        exact ⟨rfl, rfl, rfl⟩
    · intro hjobs p hp o hdetermines
      obtain ⟨hlt, hof⟩ := hnext.root p hp
      have hsettled := hnext.quiet hjobs hlt hdetermines
      rw [hof] at hsettled
      cases hstate : (step s l).state p with
      | none => exact absurd hstate hsettled
      | some o' => rw [(hnext.right p hp o' hstate).unique hdetermines]

theorem inv_empty : Inv Nobody State.empty where
  fresh _ _ := ⟨rfl, rfl, rfl⟩
  freshPromise _ _ := ⟨rfl, rfl⟩
  promiseOf _ h := absurd h (Nat.not_lt_zero _)
  root _ h := absurd h (Nat.not_lt_zero _)
  chain _ h := absurd h (Nat.not_lt_zero _)
  decides _ h := absurd h (Nat.not_lt_zero _)
  used _ h := absurd rfl h
  exposed _ h := absurd h (Nat.not_lt_zero _)
  child _ _ _ h := nomatch h
  waits _ h := absurd h (Nat.not_lt_zero _)
  opened _ h := absurd h (Nat.not_lt_zero _)
  records _ _ h := nomatch h
  drained _ h := absurd rfl h
  adoptions _ _ h := nomatch h
  thenables _ _ h := nomatch h
  nodup := List.nodup_nil
  values _ _ h := nomatch h
  right _ h := absurd h (Nat.not_lt_zero _)

/-- **When the first call decides**: in a run, after every label settled promises stay, calls
after the first of their pair have no effect, and promises settle as the first call of their
pair determines, exactly when no pair is called again while its promise is pending and no
adoption delivers an object with a `then` to a pending promise. -/
theorem resolving_iff (labels : List Label) :
    Lib.StepsMeet step Good State.empty labels ↔ Lib.StepsMeet step Met State.empty labels := by
  have hrun : ∀ s, Inv Nobody s →
      (Lib.StepsMeet step Good s labels ↔ Lib.StepsMeet step Met s labels) := by
    induction labels with
    | nil => intro s _; exact Iff.rfl
    | cons l labels ih =>
      intro s h
      simp only [Lib.StepsMeet]
      rw [step_good_iff h l]
      exact and_congr_right fun hmet => ih (step s l) (h.step l hmet)
  exact hrun State.empty inv_empty

/-- `resolve(q); resolve(5)` with `q` pending fulfils the promise with 5. -/
theorem not_resolving : ¬ ∀ labels : List Label, Lib.StepsMeet step Good State.empty labels := by
  intro h
  have hrun := h [.newPromise, .newPromise, .call 0 (.promise 1) false, .call 0 (.other 5) false]
  have heffect := hrun.2.2.2.1.second 0 (.other 5) false rfl (by decide)
  have hstate := congrFun heffect.state 0
  revert hstate
  decide

end V12.Resolving
