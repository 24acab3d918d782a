/-
V12.Heap.ShapeStability — what a bound shape shows does not change, as
long as no accessor is completed in place under it.

`define_accessor` completes an accessor in the shape it finds it in. A step
that does this to a bound shape changes what the bound object sees
(`RewritesBound`); every other step leaves all bound shapes alone.
-/
import V12.Heap.ShapeTree

namespace V12.Heap

namespace ShapeTree

variable {t : ShapeTree} {op : ShapeOp}

/-- The step completes an accessor in place in a shape some object is bound to. -/
def RewritesBound (t : ShapeTree) (op : ShapeOp) : Prop :=
  ∃ target key, t.rewrites op = some (target, key) ∧ target ∈ t.bound

def BoundValid (t : ShapeTree) : Prop := ∀ h ∈ t.bound, h < t.shapes.length

/-- Every shape bound in `t` is bound in `t'` and looks the same there. -/
def KeepsBound (t t' : ShapeTree) : Prop :=
  ∀ h ∈ t.bound, h ∈ t'.bound ∧ ∀ key, t'.lookup h key = t.lookup h key

theorem KeepsBound.refl (t : ShapeTree) : KeepsBound t t := fun _ hmem => ⟨hmem, fun _ => rfl⟩

theorem KeepsBound.trans {t' t'' : ShapeTree} (h : KeepsBound t t') (h' : KeepsBound t' t'') :
    KeepsBound t t'' := by
  intro x hmem
  obtain ⟨hmem', hsame⟩ := h x hmem
  obtain ⟨hmem'', hsame'⟩ := h' x hmem'
  exact ⟨hmem'', fun key => (hsame' key).trans (hsame key)⟩

theorem bound_step (t : ShapeTree) (op : ShapeOp) :
    (t.step op).bound = t.bound ∨
      ∃ shape, shape < t.shapes.length ∧ (t.step op).bound = shape :: t.bound := by
  cases hrw : t.rewrites op with
  | some r =>
    obtain ⟨g, s, at_, g', s', at', -, -, heq⟩ := step_of_rewrites hrw
    rw [heq]
    exact Or.inl rfl
  | none =>
    have hchange := change_step hrw
    generalize t.step op = t' at hchange ⊢
    cases hchange with
    | bind shape =>
      simp only [bind]
      split
      case isTrue hlt => exact Or.inr ⟨shape, hlt, rfl⟩
      case isFalse => exact Or.inl rfl
    | _ => exact Or.inl rfl

theorem mem_bound_step {h : Nat} (hmem : h ∈ t.bound) :
    h ∈ (t.step op).bound := by
  rcases bound_step t op with heq | ⟨shape, -, heq⟩
  · exact heq ▸ hmem
  · rw [heq]
    exact List.mem_cons_of_mem _ hmem

theorem boundValid_step (h : BoundValid t) :
    BoundValid (t.step op) := by
  have hle := length_step_le t op
  intro x hmem
  rcases bound_step t op with heq | ⟨shape, hlt, heq⟩
  · exact Nat.lt_of_lt_of_le (h x (heq ▸ hmem)) hle
  · rw [heq] at hmem
    rcases List.mem_cons.mp hmem with rfl | hmem
    · exact Nat.lt_of_lt_of_le hlt hle
    · exact Nat.lt_of_lt_of_le (h x hmem) hle

theorem boundValid_runOps (ops : List ShapeOp) : BoundValid (runOps ops) :=
  Lib.run_invariant (C := fun _ _ => True) (fun _ _ h _ => boundValid_step h)
    (fun _ hmem => by cases hmem) (Lib.stepsMeet_of_forall (fun _ _ => trivial) ops empty)

theorem keepsBound_step (hvalid : BoundValid t) (h : ¬ RewritesBound t op) :
    KeepsBound t (t.step op) := by
  intro x hmem
  refine ⟨mem_bound_step hmem, ?_⟩
  intro key
  cases hrw : t.rewrites op with
  | none => exact (sameShape_step hrw (hvalid x hmem)).lookup key
  | some r =>
    obtain ⟨target, k⟩ := r
    obtain ⟨g, s, at_, g', s', at', -, -, heq⟩ := step_of_rewrites hrw
    have hne : target ≠ x := fun hx => h ⟨target, k, hrw, hx ▸ hmem⟩
    rw [heq]
    exact (sameShape_rewriteAccessor hne).lookup key

theorem not_keepsBound_step (h : RewritesBound t op) :
    ¬ KeepsBound t (t.step op) := by
  obtain ⟨target, key, hrw, hmem⟩ := h
  obtain ⟨g, s, at_, g', s', at', hl, hnew, heq⟩ := step_of_rewrites hrw
  intro hkeep
  have hsame := (hkeep target hmem).2 key
  rw [heq, lookup_rewriteAccessor_self hl, hl] at hsame
  simp only [Option.some.injEq, Descriptor.accessor.injEq, true_and] at hsame
  exact hnew ⟨hsame.1, hsame.2.1⟩

theorem keepsBound_run {ops : List ShapeOp} (hvalid : BoundValid t)
    (h : Lib.StepsMeet step (fun t op => ¬ RewritesBound t op) t ops) :
    KeepsBound t (Lib.run step t ops) :=
  Lib.run_related KeepsBound.refl KeepsBound.trans (fun _ _ hv _ => boundValid_step hv)
    (fun _ _ hv hc => keepsBound_step hv hc) hvalid h

/-- **Bound shapes are stable exactly when no accessor is completed in place
under a bound object.** -/
theorem bound_lookup_stable_iff (ops : List ShapeOp) :
    (∀ before mid after, ops = before ++ mid ++ after →
      ∀ h ∈ (runOps before).bound, ∀ key,
        (runOps (before ++ mid)).lookup h key = (runOps before).lookup h key) ↔
    Lib.StepsMeet step (fun t op => ¬ RewritesBound t op) empty ops := by
  constructor
  · intro hstable
    by_contra hfail
    obtain ⟨before, op, after, heq, -, hbad⟩ := Lib.exists_first_failure hfail
    refine not_keepsBound_step (not_not.mp hbad) ?_
    intro x hmem
    refine ⟨mem_bound_step hmem, ?_⟩
    intro key
    have := hstable before [op] after (by simp [heq]) x hmem key
    simpa [runOps] using this
  · intro hmeet before mid after heq x hmem key
    rw [heq, List.append_assoc, Lib.stepsMeet_append, Lib.stepsMeet_append] at hmeet
    have hkeep := keepsBound_run (boundValid_runOps before) hmeet.2.1
    have := (hkeep x hmem).2 key
    simpa [runOps] using this

/-- Two objects take the same accessor edge; the second brings the setter. -/
def sharedAccessorOps : List ShapeOp :=
  [.newRoot 0, .defineAccessor 0 (.string 1) (some 10) none .enumerableAccessor, .bind 1,
   .defineAccessor 0 (.string 1) none (some 20) .enumerableAccessor]

/-- The first object, bound to shape 1 with a getter alone, comes to see the
setter the second one defined. -/
theorem bound_lookup_unstable :
    ¬ ∀ before mid after, sharedAccessorOps = before ++ mid ++ after →
      ∀ h ∈ (runOps before).bound, ∀ key,
        (runOps (before ++ mid)).lookup h key = (runOps before).lookup h key := by
  intro hstable
  have hsame := hstable (sharedAccessorOps.take 3) (sharedAccessorOps.drop 3) [] rfl 1
    (by decide) (.string 1)
  have hbefore : (runOps (sharedAccessorOps.take 3)).lookup 1 (.string 1) =
      some (.accessor (.string 1) (some 10) none .enumerableAccessor) := by decide
  have hafter : (runOps (sharedAccessorOps.take 3 ++ sharedAccessorOps.drop 3)).lookup 1
      (.string 1) = some (.accessor (.string 1) (some 10) (some 20) .enumerableAccessor) := by
    decide
  rw [hbefore, hafter] at hsame
  simp at hsame

end ShapeTree

end V12.Heap
