/-
V12.Lib.Run — runs of a deterministic machine over labelled steps.

A machine is a step function `σ → α → σ`; a run folds it over a list of
labels. `StepsMeet C` says that each step of a run meets a condition on
its label and the state before it.
-/
import Mathlib.Tactic.Common

namespace Lib

variable {σ α : Type*} (step : σ → α → σ)

def run (s : σ) (as : List α) : σ := as.foldl step s

@[simp] theorem run_nil (s : σ) : run step s [] = s := rfl

@[simp] theorem run_cons (s : σ) (a : α) (as : List α) :
    run step s (a :: as) = run step (step s a) as := rfl

@[simp] theorem run_append (s : σ) (as bs : List α) :
    run step s (as ++ bs) = run step (run step s as) bs := List.foldl_append

theorem run_concat (s : σ) (as : List α) (a : α) :
    run step s (as ++ [a]) = step (run step s as) a := by simp

/-- Each step of the run meets `C` on its label and the state before it. -/
def StepsMeet (C : σ → α → Prop) : σ → List α → Prop
  | _, [] => True
  | s, a :: as => C s a ∧ StepsMeet C (step s a) as

instance decidableStepsMeet (C : σ → α → Prop) [∀ s a, Decidable (C s a)] :
    ∀ (s : σ) (as : List α), Decidable (StepsMeet step C s as)
  | _, [] => isTrue trivial
  | s, a :: as =>
    have := decidableStepsMeet C (step s a) as
    inferInstanceAs (Decidable (_ ∧ _))

variable {step} {C : σ → α → Prop}
variable {as : List α} {I : σ → Prop} {Q : σ → α → Prop}

theorem stepsMeet_append {bs : List α} : ∀ {s : σ},
    StepsMeet step C s (as ++ bs) ↔ StepsMeet step C s as ∧ StepsMeet step C (run step s as) bs := by
  induction as with
  | nil => intro s; simp [StepsMeet]
  | cons a as ih => intro s; simp [StepsMeet, ih, and_assoc]

theorem StepsMeet.imp {D : σ → α → Prop} (hCD : ∀ s a, C s a → D s a) : ∀ {as : List α} {s : σ},
    StepsMeet step C s as → StepsMeet step D s as
  | [], _, _ => trivial
  | _ :: _, _, h => ⟨hCD _ _ h.1, StepsMeet.imp hCD h.2⟩

theorem stepsMeet_and {D : σ → α → Prop} : ∀ {as : List α} {s : σ}, StepsMeet step C s as →
    StepsMeet step D s as → StepsMeet step (fun s a => C s a ∧ D s a) s as
  | [], _, _, _ => trivial
  | _ :: _, _, hC, hD => ⟨⟨hC.1, hD.1⟩, stepsMeet_and hC.2 hD.2⟩

/-- **Invariant rule.** -/
theorem run_invariant (hstep : ∀ s a, I s → C s a → I (step s a)) {s : σ} (hs : I s)
    (h : StepsMeet step C s as) : I (run step s as) := by
  induction as generalizing s with
  | nil => exact hs
  | cons a as ih => exact ih (hstep s a hs h.1) h.2

/-- **Preorder rule**: under an invariant, what each step respects, the run
respects. -/
theorem run_related {R : σ → σ → Prop} (hrefl : ∀ s, R s s)
    (htrans : ∀ {s t u}, R s t → R t u → R s u) (hinv : ∀ s a, I s → C s a → I (step s a))
    (hstep : ∀ s a, I s → C s a → R s (step s a)) {s : σ} (hs : I s) (h : StepsMeet step C s as) :
    R s (run step s as) := by
  induction as generalizing s with
  | nil => exact hrefl s
  | cons a as ih => exact htrans (hstep s a hs h.1) (ih (hinv s a hs h.1) h.2)

theorem exists_first_failure : ∀ {as : List α} {s : σ}, ¬ StepsMeet step C s as →
    ∃ before a after, as = before ++ a :: after ∧ StepsMeet step C s before ∧
      ¬ C (run step s before) a
  | [], _, h => absurd trivial h
  | a :: as, s, h => by
    by_cases ha : C s a
    · have hrest : ¬ StepsMeet step C (step s a) as := fun hr => h ⟨ha, hr⟩
      obtain ⟨before, b, after, heq, hmeet, hfail⟩ := exists_first_failure hrest
      exact ⟨a :: before, b, after, by rw [heq]; rfl, ⟨ha, hmeet⟩, hfail⟩
    · exact ⟨[], a, as, rfl, trivial, ha⟩

theorem StepsMeet.at_step {before after : List α} {a : α} {s : σ} (h : StepsMeet step C s as)
    (heq : as = before ++ a :: after) : C (run step s before) a := by
  rw [heq, stepsMeet_append] at h
  exact h.2.1

theorem stepsMeet_of_forall (h : ∀ s a, C s a) : ∀ (as : List α) (s : σ), StepsMeet step C s as
  | [], _ => trivial
  | a :: as, s => ⟨h s a, stepsMeet_of_forall h as (step s a)⟩

/-- **State rule**: `I` holds in every state a run reaches when it holds at the
start and each step arrives in it. -/
theorem states_iff_stepsMeet : ∀ {as : List α} {s : σ}, I s →
    ((∀ before after, as = before ++ after → I (run step s before)) ↔
      StepsMeet step (fun s a => I (step s a)) s as)
  | [], s, hs => by
    refine ⟨fun _ => trivial, fun _ before after heq => ?_⟩
    rw [(List.append_eq_nil_iff.mp heq.symm).1]
    exact hs
  | a :: as, s, hs => by
    constructor
    · intro hall
      have hfirst : I (step s a) := hall [a] as rfl
      refine ⟨hfirst, (states_iff_stepsMeet hfirst).mp fun before after heq => ?_⟩
      exact hall (a :: before) after (by rw [heq]; rfl)
    · rintro ⟨hfirst, hrest⟩ before after heq
      cases before with
      | nil => exact hs
      | cons b before =>
        obtain ⟨rfl, hrun⟩ := List.cons.inj heq
        exact (states_iff_stepsMeet hfirst).mpr hrest before after hrun

/-- **Exactness rule**: where a step from an invariant state arrives in `P` only if it meets
`C`, and keeps the invariant if it does, the runs through `P` are those that meet `C`. -/
theorem states_iff_of_invariant {P : σ → Prop} (hP : ∀ s, I s → P s)
    (hneeds : ∀ s a, I s → P (step s a) → C s a) (hkeeps : ∀ s a, I s → C s a → I (step s a))
    {s : σ} (hs : I s) (as : List α) :
    (∀ before after, as = before ++ after → P (run step s before)) ↔ StepsMeet step C s as := by
  rw [states_iff_stepsMeet (hP s hs)]
  induction as generalizing s with
  | nil => exact Iff.rfl
  | cons a as ih =>
    constructor
    · rintro ⟨hfirst, hrest⟩
      have ha := hneeds s a hs hfirst
      exact ⟨ha, (ih (hkeeps s a hs ha)).mp hrest⟩
    · rintro ⟨ha, hrest⟩
      have hnext := hkeeps s a hs ha
      exact ⟨hP _ hnext, (ih hnext).mpr hrest⟩

theorem forall_steps_iff : ∀ {as : List α} {s : σ},
    (∀ before a after, as = before ++ a :: after → Q (run step s before) a) ↔
      StepsMeet step Q s as
  | [], s => ⟨fun _ => trivial, fun _ before a after heq => by simp at heq⟩
  | a :: as, s => by
    constructor
    · intro hall
      refine ⟨hall [] a as rfl, forall_steps_iff.mp fun before b after heq => ?_⟩
      exact hall (a :: before) b after (by rw [heq]; rfl)
    · intro hmeet before b after heq
      exact hmeet.at_step heq

/-- **Exactness rule for steps**: where, under the invariant, a step has `Q` exactly when it
meets `C`, and a step that meets `C` keeps the invariant, the runs of steps with `Q` are
those that meet `C`. -/
theorem steps_iff_of_invariant (hiff : ∀ s a, I s → (Q s a ↔ C s a))
    (hkeeps : ∀ s a, I s → C s a → I (step s a)) {s : σ} (hs : I s) (as : List α) :
    (∀ before a after, as = before ++ a :: after → Q (run step s before) a) ↔
      StepsMeet step C s as := by
  rw [forall_steps_iff]
  induction as generalizing s with
  | nil => exact Iff.rfl
  | cons a as ih =>
    constructor
    · rintro ⟨hfirst, hrest⟩
      have ha := (hiff s a hs).mp hfirst
      exact ⟨ha, (ih (hkeeps s a hs ha)).mp hrest⟩
    · rintro ⟨ha, hrest⟩
      exact ⟨(hiff s a hs).mpr ha, (ih (hkeeps s a hs ha)).mpr hrest⟩

/-- **Comparison rule**: conditions that agree on the steps of a run meeting `C`, under an
invariant these steps keep, are met by the same of these runs. -/
theorem stepsMeet_iff_of_invariant {P : σ → α → Prop} (hiff : ∀ s a, I s → C s a → (P s a ↔ Q s a))
    (hkeeps : ∀ s a, I s → C s a → I (step s a)) {s : σ} (hs : I s) (hC : StepsMeet step C s as) :
    StepsMeet step P s as ↔ StepsMeet step Q s as := by
  induction as generalizing s with
  | nil => exact Iff.rfl
  | cons a as ih => exact and_congr (hiff s a hs hC.1) (ih (hkeeps s a hs hC.1) hC.2)

end Lib
