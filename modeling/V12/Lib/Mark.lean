/-
V12.Lib.Mark — marking a finite graph with an explicit worklist.

A marker holds mark bits and a stack of vertices still to be scanned.
Marking a vertex sets its bit and pushes it, once; draining pops a vertex
and marks its successors. Vertices outside the domain are ignored.
-/
import Mathlib.Logic.Function.Basic
import Mathlib.Data.List.Count
import Mathlib.Tactic.Common

namespace Lib

variable {V : Type*}

theorem countP_eq_succ {all : List V} (hnodup : all.Nodup) {p q : V → Bool} {v : V} (hv : v ∈ all)
    (hp : p v = true) (hq : q v = false) (hsame : ∀ u, u ≠ v → p u = q u) :
    all.countP p = all.countP q + 1 := by
  induction all with
  | nil => cases hv
  | cons u us ih =>
    obtain ⟨hnotin, hus⟩ := List.nodup_cons.mp hnodup
    rw [List.countP_cons, List.countP_cons]
    rcases List.mem_cons.mp hv with rfl | hmem
    · have hrest : us.countP p = us.countP q := by
        refine List.countP_congr fun u hu => ?_
        rw [hsame u (fun heq => hnotin (heq ▸ hu))]
      rw [hrest, hp, hq]
      rfl
    · have hne : u ≠ v := fun heq => hnotin (heq ▸ hmem)
      rw [ih hus hmem, hsame u hne]
      omega

/-! ## §1 Reachability -/

/-- Reachability from the roots through successors, inside the domain. -/
inductive Reach (dom : V → Bool) (succ : V → List V) (roots : List V) : V → Prop where
  | root {v : V} (hmem : v ∈ roots) (hdom : dom v = true) : Reach dom succ roots v
  | step {u v : V} (hu : Reach dom succ roots u) (hmem : v ∈ succ u) (hdom : dom v = true) :
      Reach dom succ roots v

variable {dom dom' : V → Bool} {succ succ' : V → List V} {roots roots' : List V}

theorem Reach.inDom {v : V} (h : Reach dom succ roots v) : dom v = true := by
  cases h with
  | root _ hdom => exact hdom
  | step _ _ hdom => exact hdom

theorem Reach.subset_closed {S : V → Prop} (hroots : ∀ v ∈ roots, dom v = true → S v)
    (hclosed : ∀ u, S u → ∀ v ∈ succ u, dom v = true → S v) {v : V}
    (h : Reach dom succ roots v) : S v := by
  induction h with
  | root hmem hdom => exact hroots _ hmem hdom
  | step _ hmem hdom ih => exact hclosed _ ih _ hmem hdom

theorem Reach.mono (hroots : ∀ v ∈ roots, dom v = true → v ∈ roots' ∧ dom' v = true)
    (hstep : ∀ u, Reach dom succ roots u → ∀ v ∈ succ u, dom v = true →
      v ∈ succ' u ∧ dom' v = true) {v : V} (h : Reach dom succ roots v) :
    Reach dom' succ' roots' v := by
  induction h with
  | root hmem hdom =>
    obtain ⟨hmem', hdom'⟩ := hroots _ hmem hdom
    exact .root hmem' hdom'
  | step hu hmem hdom ih =>
    obtain ⟨hmem', hdom'⟩ := hstep _ hu _ hmem hdom
    exact .step ih hmem' hdom'

/-! ## §2 The marker -/

/-- Mark bits plus the explicit worklist. -/
structure Marker (V : Type*) where
  marked : V → Bool
  work : List V

namespace Marker

variable [DecidableEq V]

def new : Marker V := ⟨fun _ => false, []⟩

/-- Marks a vertex of the domain and pushes it, unless it is marked. -/
def mark (dom : V → Bool) (m : Marker V) (v : V) : Marker V :=
  if dom v && !m.marked v then ⟨Function.update m.marked v true, v :: m.work⟩ else m

def markAll (dom : V → Bool) (m : Marker V) (vs : List V) : Marker V := vs.foldl (mark dom) m

def drain (dom : V → Bool) (succ : V → List V) : Nat → Marker V → Marker V
  | 0, m => m
  | fuel + 1, m =>
    match m.work with
    | [] => m
    | v :: rest => drain dom succ fuel (markAll dom { m with work := rest } (succ v))

/-- `m'` has grown from `m` by marking vertices of `vs`, each pushed as it is
marked. -/
structure Grown (dom : V → Bool) (vs : List V) (m m' : Marker V) : Prop where
  keeps : ∀ v, m.marked v = true → m'.marked v = true
  stacked : ∀ v ∈ m.work, v ∈ m'.work
  marks : ∀ v ∈ vs, dom v = true → m'.marked v = true
  origin : ∀ v, m'.marked v = true → m.marked v = true ∨ (v ∈ vs ∧ dom v = true ∧ v ∈ m'.work)
  pushed : ∀ v ∈ m'.work, v ∈ m.work ∨ m'.marked v = true

omit [DecidableEq V] in
theorem Grown.refl (m : Marker V) : Grown dom [] m m :=
  ⟨fun _ h => h, fun _ h => h, fun v hv => absurd hv (by simp), fun _ h => Or.inl h,
    fun _ h => Or.inl h⟩

theorem mark_grown (m : Marker V) (v : V) : Grown dom [v] m (m.mark dom v) := by
  unfold mark
  by_cases hv : dom v && !m.marked v
  · rw [if_pos hv]
    obtain ⟨hdom, -⟩ := Bool.and_eq_true_iff.mp hv
    refine ⟨fun u hu => ?_, fun u hu => by simp [hu], fun u hu _ => ?_, fun u hu => ?_, fun u hu => ?_⟩
    · by_cases huv : u = v
      · simp [huv]
      · simpa [Function.update, huv] using hu
    · obtain rfl : u = v := by simpa using hu
      simp
    · by_cases huv : u = v
      · subst huv
        exact Or.inr ⟨by simp, hdom, by simp⟩
      · exact Or.inl (by simpa [Function.update, huv] using hu)
    · rcases List.mem_cons.mp hu with rfl | hu
      · exact Or.inr (by simp)
      · exact Or.inl hu
  · rw [if_neg hv]
    refine ⟨fun _ h => h, fun _ h => h, fun u hu hdom => ?_, fun _ h => Or.inl h,
      fun _ h => Or.inl h⟩
    obtain rfl : u = v := by simpa using hu
    simpa [hdom] using hv

omit [DecidableEq V] in
theorem Grown.trans {vs ws : List V} {m₁ m₂ m₃ : Marker V} (h₁ : Grown dom vs m₁ m₂)
    (h₂ : Grown dom ws m₂ m₃) : Grown dom (vs ++ ws) m₁ m₃ := by
  refine ⟨fun v hv => h₂.keeps v (h₁.keeps v hv), fun v hv => h₂.stacked v (h₁.stacked v hv),
    fun v hv hdom => ?_, fun v hv => ?_, fun v hv => ?_⟩
  · rcases List.mem_append.mp hv with hv | hv
    · exact h₂.keeps v (h₁.marks v hv hdom)
    · exact h₂.marks v hv hdom
  · rcases h₂.origin v hv with hold | ⟨hmem, hdom, hwork⟩
    · rcases h₁.origin v hold with hold | ⟨hmem, hdom, hwork⟩
      · exact Or.inl hold
      · exact Or.inr ⟨List.mem_append_left _ hmem, hdom, h₂.stacked v hwork⟩
    · exact Or.inr ⟨List.mem_append_right _ hmem, hdom, hwork⟩
  · rcases h₂.pushed v hv with hold | hnew
    · rcases h₁.pushed v hold with hold | hmarked
      · exact Or.inl hold
      · exact Or.inr (h₂.keeps v hmarked)
    · exact Or.inr hnew

theorem markAll_grown (vs : List V) : ∀ m : Marker V, Grown dom vs m (m.markAll dom vs) := by
  induction vs with
  | nil => exact fun m => Grown.refl m
  | cons v vs ih => exact fun m => (mark_grown m v).trans (ih (m.mark dom v))

/-! ## §3 Draining -/

/-- The invariant of the drain: marked vertices are reachable, the roots are
marked, and a marked vertex waits on the stack or has its successors marked. -/
structure Sound (dom : V → Bool) (succ : V → List V) (roots : List V) (m : Marker V) : Prop where
  reach : ∀ v, m.marked v = true → Reach dom succ roots v
  rooted : ∀ v ∈ roots, dom v = true → m.marked v = true
  waiting : ∀ v ∈ m.work, m.marked v = true
  scanned : ∀ u, m.marked u = true → u ∈ m.work ∨ ∀ v ∈ succ u, dom v = true → m.marked v = true

theorem sound_roots (dom : V → Bool) (succ : V → List V) (roots : List V) :
    Sound dom succ roots (markAll dom new roots) := by
  have hg : Grown dom roots new (markAll dom new roots) := markAll_grown roots new
  refine ⟨fun v hv => ?_, hg.marks, fun v hv => ?_, fun u hu => ?_⟩
  · rcases hg.origin v hv with hold | ⟨hmem, hdom, -⟩
    · cases hold
    · exact .root hmem hdom
  · rcases hg.pushed v hv with hold | hmarked
    · cases hold
    · exact hmarked
  · rcases hg.origin u hu with hold | ⟨-, -, hwork⟩
    · cases hold
    · exact Or.inl hwork

theorem Sound.scan {m : Marker V} {v : V} {rest : List V} (h : Sound dom succ roots m)
    (hwork : m.work = v :: rest) :
    Sound dom succ roots (markAll dom { m with work := rest } (succ v)) := by
  have hg : Grown dom (succ v) { m with work := rest } (markAll dom { m with work := rest } (succ v)) :=
    markAll_grown (succ v) _
  have hv : m.marked v = true := h.waiting v (by rw [hwork]; simp)
  refine ⟨fun u hu => ?_, fun u hu hdom => hg.keeps u (h.rooted u hu hdom), fun u hu => ?_,
    fun u hu => ?_⟩
  · rcases hg.origin u hu with hold | ⟨hmem, hdom, -⟩
    · exact h.reach u hold
    · exact .step (h.reach v hv) hmem hdom
  · rcases hg.pushed u hu with hold | hmarked
    · have : u ∈ m.work := by rw [hwork]; exact List.mem_cons_of_mem _ hold
      exact hg.keeps u (h.waiting u this)
    · exact hmarked
  · by_cases huv : u = v
    · subst huv
      exact Or.inr hg.marks
    · rcases hg.origin u hu with hold | ⟨-, -, hin⟩
      · rcases h.scanned u hold with hin | hdone
        · rw [hwork] at hin
          rcases List.mem_cons.mp hin with heq | hin
          · exact absurd heq huv
          · exact Or.inl (hg.stacked u hin)
        · exact Or.inr fun w hw hdom => hg.keeps w (hdone w hw hdom)
      · exact Or.inl hin

/-- Vertices of `all` without a mark. -/
def unmarked (all : List V) (m : Marker V) : Nat := all.countP fun v => !m.marked v

theorem mark_budget {all : List V} (hnodup : all.Nodup) (hall : ∀ v, dom v = true → v ∈ all)
    (m : Marker V) (v : V) :
    (m.mark dom v).unmarked all + (m.mark dom v).work.length = m.unmarked all + m.work.length := by
  unfold mark
  by_cases hv : dom v && !m.marked v
  · rw [if_pos hv]
    obtain ⟨hdom, hfree⟩ := Bool.and_eq_true_iff.mp hv
    have hcount : m.unmarked all = all.countP (fun u => !Function.update m.marked v true u) + 1 :=
      countP_eq_succ hnodup (hall v hdom) hfree (by simp) (fun u hu => by simp [Function.update, hu])
    rw [hcount, List.length_cons]
    simp only [unmarked]
    omega
  · rw [if_neg hv]

theorem markAll_budget {all : List V} (hnodup : all.Nodup) (hall : ∀ v, dom v = true → v ∈ all)
    (vs : List V) : ∀ m : Marker V,
      (m.markAll dom vs).unmarked all + (m.markAll dom vs).work.length =
        m.unmarked all + m.work.length := by
  induction vs with
  | nil => exact fun _ => rfl
  | cons v vs ih =>
    intro m
    exact (ih (m.mark dom v)).trans (mark_budget hnodup hall m v)

theorem drain_sound {all : List V} (hnodup : all.Nodup) (hall : ∀ v, dom v = true → v ∈ all)
    (fuel : Nat) : ∀ m : Marker V, Sound dom succ roots m →
      m.unmarked all + m.work.length ≤ fuel →
      Sound dom succ roots (m.drain dom succ fuel) ∧ (m.drain dom succ fuel).work = [] := by
  induction fuel with
  | zero =>
    intro m hm hfuel
    have hwork : m.work.length = 0 := by omega
    exact ⟨hm, List.length_eq_zero_iff.mp hwork⟩
  | succ fuel ih =>
    intro m hm hfuel
    cases hwork : m.work with
    | nil =>
      rw [drain, hwork]
      exact ⟨hm, hwork⟩
    | cons v rest =>
      simp only [drain, hwork]
      refine ih _ (hm.scan hwork) ?_
      rw [markAll_budget hnodup hall]
      rw [hwork, List.length_cons] at hfuel
      simp only [unmarked] at hfuel ⊢
      omega

/-- **Marking is reachability.** -/
theorem drain_marked_iff {all : List V} (hnodup : all.Nodup) (hall : ∀ v, dom v = true → v ∈ all)
    (v : V) :
    ((markAll dom new roots).drain dom succ all.length).marked v = true ↔
      Reach dom succ roots v := by
  have hfuel : (markAll dom new roots).unmarked all + (markAll dom new roots).work.length ≤
      all.length := by
    rw [markAll_budget hnodup hall]
    exact List.countP_le_length
  obtain ⟨hsound, hempty⟩ := drain_sound hnodup hall all.length _ (sound_roots dom succ roots) hfuel
  constructor
  · exact hsound.reach v
  · intro hreach
    refine hreach.subset_closed hsound.rooted fun u hu => ?_
    rcases hsound.scanned u hu with hin | hdone
    · rw [hempty] at hin
      cases hin
    · exact hdone

end Marker

end Lib
