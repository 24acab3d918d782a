/-
V12.Heap.ShapeLayout — where a shape stores its keys never changes, and a
shape operation lays out at most the key it is called with.

The layout of a key is its slot, or that it is an accessor, or nothing. An edge
always leads to a shape that lays out every other key like the shape it starts
from, and its own key there, at the slot count of that shape, or as an accessor.
-/
import V12.Heap.ShapeTree

namespace V12.Heap.ShapeTree

variable {t t' : ShapeTree} {key : PropKey} {parent : Nat} {p : Shape} {attrs : Attrs}
  {r : ShapeTree × Nat}

/-- The slot of a data record, `none` for an accessor's. -/
def layout (t : ShapeTree) (h : Nat) (key : PropKey) : Option (Option Nat) :=
  (t.lookup h key).map Descriptor.slot

/-- `child` lays out `key` and, besides, what `parent` does. -/
structure AddsKey (t : ShapeTree) (parent child : Nat) (key : PropKey) : Prop where
  others : ∀ k, k ≠ key → t.layout child k = t.layout parent k
  self : t.layout child key = some none ∨
    ((t.layout parent key).join = none ∧ t.layout child key = some (some (t.numOwn parent))) ∨
    (t.layout parent key ≠ none ∧ t.layout child key = t.layout parent key)
  count : t.numOwn parent ≤ t.numOwn child
  fresh : t.layout parent key = none → t.numOwn child = t.numOwn parent + 1
  kept : ∀ n, t.layout parent key = some (some n) → t.layout child key = some (some n)

/-- **The invariant**: every edge adds its key. -/
def EdgesAddKeys (t : ShapeTree) : Prop :=
  ∀ {parent : Nat} {p : Shape}, t.get? parent = some p → ∀ e ∈ p.transitions.edges,
    e.2 < t.shapes.length ∧ t.AddsKey parent e.2 e.1.1

/-- The old shapes lay out what they laid out. -/
structure KeepsLayout (t t' : ShapeTree) : Prop where
  length : t.shapes.length ≤ t'.shapes.length
  layout : ∀ {h : Nat}, h < t.shapes.length → ∀ k, t'.layout h k = t.layout h k
  numOwn : ∀ {h : Nat}, h < t.shapes.length → t'.numOwn h = t.numOwn h

theorem KeepsLayout.refl (t : ShapeTree) : KeepsLayout t t :=
  ⟨Nat.le_refl _, fun _ _ => rfl, fun _ => rfl⟩

theorem KeepsLayout.of_sameShape (hlen : t.shapes.length ≤ t'.shapes.length)
    (hsame : ∀ {h : Nat}, h < t.shapes.length → SameShape t t' h) : KeepsLayout t t' :=
  ⟨hlen, fun hlt k => by rw [ShapeTree.layout, ShapeTree.layout, (hsame hlt).lookup],
    fun hlt => (hsame hlt).numOwn⟩

theorem keepsLayout_newChild (t : ShapeTree) (parent : Nat) (key : PropKey) (attrs : Attrs)
    (ds : Descriptors) (n : Nat) : KeepsLayout t (t.newChild parent key attrs ds n).1 :=
  .of_sameShape (by simp) sameShape_newChild

theorem keepsLayout_bind (t : ShapeTree) (h : Nat) : KeepsLayout t (t.bind h) :=
  .of_sameShape (Nat.le_of_eq (by rw [shapes_bind])) fun _ => sameShape_bind t h _

theorem keepsLayout_rewriteAccessor {target : Nat} {g s : Option Nat} {at_ : Attrs}
    (hl : t.lookup target key = some (.accessor key g s at_)) (getter setter : Option Nat)
    (attrs : Attrs) :
    KeepsLayout t (t.rewriteAccessor target key getter setter attrs) := by
  refine ⟨by simp, fun {h} _ k => ?_, fun _ => numOwn_rewriteAccessor⟩
  by_cases hk : k = key
  · by_cases hh : target = h
    · subst hk hh
      simp [ShapeTree.layout, lookup_rewriteAccessor_self hl, hl, Descriptor.slot]
    · rw [ShapeTree.layout, ShapeTree.layout, (sameShape_rewriteAccessor hh).lookup]
  · rw [ShapeTree.layout, ShapeTree.layout, lookup_rewriteAccessor_of_ne hk]

theorem AddsKey.of_keepsLayout (hkeep : KeepsLayout t t') {child : Nat}
    (hp : parent < t.shapes.length) (hc : child < t.shapes.length)
    (h : t.AddsKey parent child key) : t'.AddsKey parent child key where
  others k hk := by rw [hkeep.layout hc, hkeep.layout hp, h.others k hk]
  self := by
    rw [hkeep.layout hc, hkeep.layout hp, hkeep.numOwn hp]
    exact h.self
  count := by
    rw [hkeep.numOwn hp, hkeep.numOwn hc]
    exact h.count
  fresh hnone := by
    rw [hkeep.layout hp] at hnone
    rw [hkeep.numOwn hp, hkeep.numOwn hc]
    exact h.fresh hnone
  kept n hn := by
    rw [hkeep.layout hp] at hn
    rw [hkeep.layout hc]
    exact h.kept n hn

theorem EdgesAddKeys.of_keepsLayout (ht : EdgesAddKeys t) (hkeep : KeepsLayout t t')
    (hedges : EdgesFrom t t') : EdgesAddKeys t' := by
  intro parent p hp e he
  obtain ⟨p₀, hp₀, he₀⟩ := hedges hp e he
  obtain ⟨hlt, hadds⟩ := ht hp₀ e he₀
  exact ⟨Nat.lt_of_lt_of_le hlt hkeep.length, hadds.of_keepsLayout hkeep (lt_of_get? hp₀) hlt⟩

theorem layout_parent (hp : t.get? parent = some p) (k : PropKey) :
    t.layout parent k = (findIn p.descriptors.asSlice k).map Descriptor.slot := by
  simp [layout, lookup_eq, hp]

theorem numOwn_of_get? (hp : t.get? parent = some p) :
    t.numOwn parent = p.numOwn := by
  simp [numOwn, hp]

/-- The records and slot count of a child fit the shape it is added to. -/
structure ChildFits (t : ShapeTree) (parent : Nat) (key : PropKey) (ds : List Descriptor)
    (n : Nat) : Prop where
  others : ∀ k, k ≠ key → (findIn ds k).map Descriptor.slot = t.layout parent k
  self : (findIn ds key).map Descriptor.slot = some none ∨
    ((t.layout parent key).join = none ∧
      (findIn ds key).map Descriptor.slot = some (some (t.numOwn parent))) ∨
    (t.layout parent key ≠ none ∧ (findIn ds key).map Descriptor.slot = t.layout parent key)
  count : t.numOwn parent ≤ n
  fresh : t.layout parent key = none → n = t.numOwn parent + 1
  kept : ∀ m, t.layout parent key = some (some m) →
    (findIn ds key).map Descriptor.slot = some (some m)

/-! ## §1 What a call returns -/

/-- A call with a key at `parent`: the tree keeps its layouts and the invariant,
and the shape returned adds the key. -/
structure Extends (t : ShapeTree) (parent : Nat) (key : PropKey) (r : ShapeTree × Nat) : Prop where
  edges : EdgesAddKeys r.1
  keeps : KeepsLayout t r.1
  valid : r.2 < r.1.shapes.length
  adds : r.1.AddsKey parent r.2 key

theorem extends_edge (ht : EdgesAddKeys t) {child : Nat} (hp : t.get? parent = some p)
    (he : p.transitions.get key attrs = some child) : Extends t parent key (t, child) := by
  obtain ⟨hlt, hadds⟩ := ht hp _ (Transitions.get_mem he)
  exact ⟨ht, .refl t, hlt, hadds⟩

theorem extends_newChild (ht : EdgesAddKeys t) (hlt : parent < t.shapes.length) {ds : Descriptors}
    {n : Nat} (hfits : ChildFits t parent key ds.asSlice n) :
    Extends t parent key (t.newChild parent key attrs ds n) := by
  have hkeep := keepsLayout_newChild t parent key attrs ds n
  have hchild (k : PropKey) : (t.newChild parent key attrs ds n).1.layout t.shapes.length k =
      (findIn ds.asSlice k).map Descriptor.slot := by
    rw [layout, lookup_newChild_self hlt]
  have hnew : (t.newChild parent key attrs ds n).1.AddsKey parent t.shapes.length key := by
    refine ⟨fun k hk => ?_, ?_, ?_, fun hnone => ?_, fun m hm => ?_⟩
    · rw [hchild, hkeep.layout hlt, hfits.others k hk]
    · rw [hchild, hkeep.layout hlt, hkeep.numOwn hlt]
      exact hfits.self
    · rw [hkeep.numOwn hlt, numOwn_newChild_self hlt]
      exact hfits.count
    · rw [hkeep.layout hlt] at hnone
      rw [hkeep.numOwn hlt, numOwn_newChild_self hlt]
      exact hfits.fresh hnone
    · rw [hkeep.layout hlt] at hm
      rw [hchild]
      exact hfits.kept m hm
  refine ⟨fun {h} s hs e he => ?_, hkeep, ?_, hnew⟩
  · rcases edges_newChild hlt hs he with ⟨rfl, rfl⟩ | ⟨s₀, hs₀, he₀⟩
    · exact ⟨by simp, hnew⟩
    · obtain ⟨hlt₀, hadds⟩ := ht hs₀ e he₀
      exact ⟨Nat.lt_of_lt_of_le hlt₀ hkeep.length,
        hadds.of_keepsLayout hkeep (lt_of_get? hs₀) hlt₀⟩
  · rw [length_newChild]
    exact Nat.lt_succ_self _

theorem childFits_append (hp : t.get? parent = some p) (d : Descriptor)
    (hslot : d.slot = none ∨ d.slot = some p.numOwn) :
    ChildFits t parent d.key (p.descriptors.asSlice ++ [d]) (p.numOwn + 1) := by
  refine ⟨fun k hk => ?_, ?_, ?_, fun _ => ?_, fun m hm => ?_⟩
  · rw [findIn_append_singleton, if_neg (Ne.symm hk), layout_parent hp]
    simp
  · rw [findIn_append_singleton, if_pos rfl, layout_parent hp, numOwn_of_get? hp]
    cases hfind : findIn p.descriptors.asSlice d.key with
    | none =>
      rcases hslot with hslot | hslot
      · exact Or.inl (by simp [hslot])
      · exact Or.inr (Or.inl ⟨by simp, by simp [hslot]⟩)
    | some d₀ => exact Or.inr (Or.inr ⟨by simp, by simp⟩)
  · rw [numOwn_of_get? hp]
    exact Nat.le_succ _
  · rw [numOwn_of_get? hp]
  · rw [layout_parent hp] at hm
    rw [findIn_append_singleton]
    cases hfind : findIn p.descriptors.asSlice d.key with
    | none => simp [hfind] at hm
    | some d₀ =>
      rw [hfind] at hm
      exact hm

theorem childFits_toData (hp : t.get? parent = some p) {d : Descriptor}
    (hd : t.lookup parent key = some d) (attrs : Attrs) :
    ChildFits t parent key (replaceFirst key (fun d => .data key (d.slot.getD p.numOwn) attrs)
      p.descriptors.asSlice) p.numOwn := by
  have hf : ∀ d : Descriptor, d.key = key →
      (Descriptor.data key (d.slot.getD p.numOwn) attrs).key = key := fun _ _ => rfl
  have hfind : findIn p.descriptors.asSlice key = some d := by simpa [lookup_eq, hp] using hd
  have hlayout : t.layout parent key = some d.slot := by simp [layout, hd]
  refine ⟨fun k hk => ?_, ?_, ?_, fun hnone => ?_, fun m hm => ?_⟩
  · rw [findIn_replaceFirst_of_ne hf hk, layout_parent hp]
  · rw [findIn_replaceFirst_self hf hfind, numOwn_of_get? hp, hlayout]
    cases hs : d.slot with
    | none => exact Or.inr (Or.inl ⟨rfl, by simp [Descriptor.slot]⟩)
    | some n => exact Or.inr (Or.inr ⟨by simp, by simp [Descriptor.slot]⟩)
  · exact Nat.le_of_eq (numOwn_of_get? hp)
  · rw [hlayout] at hnone
    cases hnone
  · rw [hlayout, Option.some.injEq] at hm
    rw [findIn_replaceFirst_self hf hfind, hm]
    rfl

theorem extends_addProperty (ht : EdgesAddKeys t) (h : t.addProperty parent key attrs = some r) :
    Extends t parent key r := by
  obtain ⟨p, hp, ⟨child, he, rfl⟩ | ⟨-, rfl⟩⟩ := addProperty_cases h
  · exact extends_edge ht hp he
  · refine extends_newChild ht (lt_of_get? hp) ?_
    rw [Descriptors.asSlice_push]
    exact childFits_append hp (.data key p.numOwn attrs) (Or.inr rfl)

theorem extends_updateDataAttrs (ht : EdgesAddKeys t)
    (h : t.updateDataAttrs parent key attrs = some r) : Extends t parent key r := by
  obtain ⟨p, hp, ⟨child, he, rfl⟩ | ⟨-, d, hd, rfl⟩ | ⟨-, -, rfl⟩⟩ := updateDataAttrs_cases h
  · exact extends_edge ht hp he
  · refine extends_newChild ht (lt_of_get? hp) ?_
    rw [Descriptors.asSlice_ofList]
    exact childFits_toData hp hd attrs
  · refine extends_newChild ht (lt_of_get? hp) ?_
    rw [Descriptors.asSlice_ofList]
    exact childFits_append hp (.data key p.numOwn attrs) (Or.inr rfl)

theorem extends_defineAccessor (ht : EdgesAddKeys t) {getter setter : Option Nat}
    (h : t.defineAccessor parent key getter setter attrs = some r) : Extends t parent key r := by
  -- the target of a merge is the edge's child or the parent itself
  have htarget {target : Nat} {g s : Option Nat}
      (hm : t.mergeTarget parent key attrs = some (target, g, s)) :
      Extends t parent key (t, target) := by
    obtain ⟨⟨p, hp, rfl⟩, at_, hl⟩ := mergeTarget_some hm
    cases he : p.transitions.get key attrs with
    | some child => exact extends_edge ht hp he
    | none =>
      simp only [he, Option.getD_none] at hl ⊢
      have hself : t.layout parent key = some none := by simp [layout, hl, Descriptor.slot]
      refine ⟨ht, .refl t, lt_of_get? hp, fun _ _ => rfl, Or.inl hself, Nat.le_refl _, ?_,
        fun _ hm => hm⟩
      intro hnone
      rw [hself] at hnone
      cases hnone
  obtain ⟨p, hp, ⟨target, g, s, hm, -, rfl⟩ | ⟨target, g, s, hm, -, rfl⟩ | ⟨-, rfl⟩⟩ :=
    defineAccessor_cases h
  · exact htarget hm
  · obtain ⟨-, at_, hl⟩ := mergeTarget_some hm
    have hx := htarget hm
    have hkeep := keepsLayout_rewriteAccessor hl (getter.or g) (setter.or s) attrs
    refine ⟨ht.of_keepsLayout hkeep (edgesFrom_rewriteAccessor _ _ _ _ _ _), hkeep, ?_, ?_⟩
    · rw [length_rewriteAccessor]
      exact hx.valid
    · exact hx.adds.of_keepsLayout hkeep (lt_of_get? hp) hx.valid
  · refine extends_newChild ht (lt_of_get? hp) ?_
    rw [Descriptors.asSlice_push]
    exact childFits_append hp (.accessor key getter setter attrs) (Or.inl rfl)

theorem layout_newChild_push (hp : t.get? parent = some p) (attrs : Attrs) (d : Descriptor)
    (n : Nat) :
    (t.newChild parent d.key attrs (p.descriptors.push d) n).1.layout t.shapes.length d.key =
      (t.layout parent d.key).or (some d.slot) := by
  rw [layout, lookup_newChild_self (lt_of_get? hp), Descriptors.asSlice_push,
    findIn_append_singleton, if_pos rfl, layout_parent hp]
  cases findIn p.descriptors.asSlice d.key <;> rfl

theorem layout_addProperty_known (h : t.addProperty parent key attrs = some r)
    (hedge : ∀ p, t.get? parent = some p → p.transitions.get key attrs = none)
    (hkey : t.layout parent key ≠ none) : r.1.layout r.2 key = t.layout parent key := by
  obtain ⟨p, hp, ⟨child, he, -⟩ | ⟨-, rfl⟩⟩ := addProperty_cases h
  · rw [hedge p hp] at he
    cases he
  · have hchild := layout_newChild_push hp attrs (.data key p.numOwn attrs) (p.numOwn + 1)
    simp only [Descriptor.key] at hchild
    rw [show (t.newChild parent key attrs _ _).2 = t.shapes.length from rfl, hchild]
    obtain ⟨slot, hslot⟩ := Option.ne_none_iff_exists'.mp hkey
    rw [hslot]
    rfl

theorem layout_defineAccessor {getter setter : Option Nat}
    (h : t.defineAccessor parent key getter setter attrs = some r) :
    r.1.layout r.2 key = some none ∨ r.1.layout r.2 key = t.layout parent key := by
  obtain ⟨p, hp, ⟨target, g, s, hm, -, rfl⟩ | ⟨target, g, s, hm, -, rfl⟩ | ⟨-, rfl⟩⟩ :=
    defineAccessor_cases h
  · obtain ⟨-, at_, hl⟩ := mergeTarget_some hm
    exact Or.inl (by simp [layout, hl, Descriptor.slot])
  · obtain ⟨-, at_, hl⟩ := mergeTarget_some hm
    exact Or.inl (by simp [layout, lookup_rewriteAccessor_self hl, Descriptor.slot])
  · have hchild := layout_newChild_push hp attrs (.accessor key getter setter attrs) (p.numOwn + 1)
    simp only [Descriptor.key] at hchild
    rw [show (t.newChild parent key attrs _ _).2 = t.shapes.length from rfl, hchild]
    cases t.layout parent key with
    | none => exact Or.inl rfl
    | some slot => exact Or.inr rfl

/-! ## §2 Any operation -/

/-- **No operation** moves a key of a shape, takes it away or gives it one. -/
theorem keepsLayout_step (ht : EdgesAddKeys t) (op : ShapeOp) :
    EdgesAddKeys (t.step op) ∧ KeepsLayout t (t.step op) := by
  unfold step
  cases hc : t.call op with
  | none => exact ⟨ht, .refl t⟩
  | some r =>
    simp only [Option.map_some, Option.getD_some]
    cases op with
    | newRoot reserved =>
      cases hc
      have hkeep : KeepsLayout t (t.newRoot reserved) :=
        .of_sameShape (by simp [newRoot, alloc]) sameShape_newRoot
      exact ⟨ht.of_keepsLayout hkeep (edgesFrom_newRoot _ _), hkeep⟩
    | addProperty parent key attrs =>
      have hx := extends_addProperty ht hc
      exact ⟨hx.edges, hx.keeps⟩
    | updateDataAttrs parent key attrs =>
      have hx := extends_updateDataAttrs ht hc
      exact ⟨hx.edges, hx.keeps⟩
    | defineAccessor parent key getter setter attrs =>
      have hx := extends_defineAccessor ht hc
      exact ⟨hx.edges, hx.keeps⟩
    | prune live =>
      cases hc
      have hkeep : KeepsLayout t (t.prune live) :=
        .of_sameShape (by simp [prune]) fun _ => sameShape_prune t live _
      exact ⟨ht.of_keepsLayout hkeep (edgesFrom_prune _ _), hkeep⟩
    | bind shape =>
      cases hc
      have hkeep := keepsLayout_bind t shape
      exact ⟨ht.of_keepsLayout hkeep (edgesFrom_bind _ _), hkeep⟩

theorem edgesAddKeys_empty : EdgesAddKeys empty := by
  intro h s hs
  cases hs

theorem KeepsLayout.trans {t₁ t₂ t₃ : ShapeTree} (h : KeepsLayout t₁ t₂) (h' : KeepsLayout t₂ t₃) :
    KeepsLayout t₁ t₃ where
  length := Nat.le_trans h.length h'.length
  layout hlt k := (h'.layout (Nat.lt_of_lt_of_le hlt h.length) k).trans (h.layout hlt k)
  numOwn hlt := (h'.numOwn (Nat.lt_of_lt_of_le hlt h.length)).trans (h.numOwn hlt)

theorem edgesAddKeys_run {s : ShapeTree} (hs : EdgesAddKeys s) (ops : List ShapeOp) :
    EdgesAddKeys (Lib.run step s ops) :=
  Lib.run_invariant (C := fun _ _ => True) (I := EdgesAddKeys)
    (fun _ op h _ => (keepsLayout_step h op).1) hs (Lib.stepsMeet_of_forall (fun _ _ => trivial) ops _)

/-- **A slot is for life**: whatever operations follow, a shape stores each key where it stored it
when the shape was made, and lays out no key more; so an answer that was cached for a shape
stays right. Every edge goes to a shape that lays out one key more than its own. -/
theorem layout_forever (ops ops' : List ShapeOp) :
    EdgesAddKeys (runOps ops) ∧ KeepsLayout (runOps ops) (runOps (ops ++ ops')) := by
  have hedges : EdgesAddKeys (runOps ops) := edgesAddKeys_run edgesAddKeys_empty ops
  refine ⟨hedges, ?_⟩
  have hrun : runOps (ops ++ ops') = Lib.run step (runOps ops) ops' := Lib.run_append _ _ _ _
  rw [hrun]
  exact Lib.run_related (I := EdgesAddKeys) (C := fun _ _ => True) KeepsLayout.refl
    (fun h h' => h.trans h') (fun _ op h _ => (keepsLayout_step h op).1)
    (fun _ op h _ => (keepsLayout_step h op).2) hedges
    (Lib.stepsMeet_of_forall (fun _ _ => trivial) ops' _)

end V12.Heap.ShapeTree
