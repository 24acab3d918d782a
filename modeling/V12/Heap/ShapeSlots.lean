/-
V12.Heap.ShapeSlots — slots of data properties do not alias, and a child
differs from its parent in its own key alone.

The tree is run with a log of the transitions taken, and `SlotDiscipline` is
what shapes are meant to keep over it. Two kinds of step break it: turning an
accessor back into data, which hands out slot `num_own` without counting it,
and completing an accessor in place in a shape that another key's transition
enters or leaves. `SlotSafe` excludes exactly these.
-/
import V12.Heap.ShapeTree

namespace V12.Heap

/-- A shape tree with the transitions taken so far. -/
structure Traced where
  tree : ShapeTree
  /-- Parent, key and resulting shape of each transition call. -/
  taken : List (Nat × PropKey × Nat)

def ShapeOp.transition : ShapeOp → Option (Nat × PropKey)
  | .addProperty parent key _ => some (parent, key)
  | .updateDataAttrs parent key _ => some (parent, key)
  | .defineAccessor parent key _ _ _ => some (parent, key)
  | _ => none

namespace Traced

variable {t : Traced} {parent : Nat} {key : PropKey} {op : ShapeOp}

def empty : Traced := ⟨.empty, []⟩

def step (t : Traced) (op : ShapeOp) : Traced where
  tree := t.tree.step op
  taken :=
    match op.transition, t.tree.call op with
    | some (parent, key), some (_, child) => (parent, key, child) :: t.taken
    | _, _ => t.taken

def runOps (ops : List ShapeOp) : Traced := Lib.run step empty ops

/-! ## §1 The discipline -/

/-- Slots of data properties are distinct and counted, the count does not
fall along a transition, and a transition changes its own key alone. -/
structure SlotDiscipline (t : Traced) : Prop where
  distinct : ∀ {h : Nat} {key key' : PropKey} {slot : Nat} {attrs attrs' : Attrs},
    t.tree.lookup h key = some (.data key slot attrs) →
      t.tree.lookup h key' = some (.data key' slot attrs') → key = key'
  below : ∀ {h : Nat} {key : PropKey} {slot : Nat} {attrs : Attrs},
    t.tree.lookup h key = some (.data key slot attrs) → slot < t.tree.numOwn h
  grows : ∀ {parent : Nat} {key : PropKey} {child : Nat}, (parent, key, child) ∈ t.taken →
    t.tree.numOwn parent ≤ t.tree.numOwn child
  others : ∀ {parent : Nat} {key : PropKey} {child : Nat}, (parent, key, child) ∈ t.taken →
    ∀ k, k ≠ key → t.tree.lookup child k = t.tree.lookup parent k

/-- Writing one own data property of an object leaves the others as they are. -/
def WritesSeparate (t : Traced) : Prop :=
  ∀ {h : Nat} {key key' : PropKey} {slot slot' : Nat} {attrs attrs' : Attrs},
    t.tree.lookup h key = some (.data key slot attrs) →
      t.tree.lookup h key' = some (.data key' slot' attrs') → key ≠ key' →
        ∀ {value : Type} (properties : List value) (v : value),
          (properties.set slot v)[slot']? = properties[slot']?

theorem SlotDiscipline.writesSeparate (ht : SlotDiscipline t) : WritesSeparate t := by
  intro h key key' slot slot' attrs attrs' hkey hkey' hne value properties v
  have hslot : slot ≠ slot' := by
    rintro rfl
    exact hne (ht.distinct hkey hkey')
  exact List.getElem?_set_ne hslot

/-- The step turns no accessor back into data through a new child, and
completes no accessor in place in a shape that a transition on another key
enters or leaves. -/
structure SlotSafe (t : Traced) (op : ShapeOp) : Prop where
  toData : ∀ {parent : Nat} {key : PropKey} {attrs : Attrs} {p : Shape} {g s : Option Nat}
    {attrs' : Attrs}, op = .updateDataAttrs parent key attrs → t.tree.get? parent = some p →
      p.transitions.get key attrs = none →
        t.tree.lookup parent key ≠ some (.accessor key g s attrs')
  inPlace : ∀ {target : Nat} {key : PropKey}, t.tree.rewrites op = some (target, key) →
    ∀ {parent : Nat} {k : PropKey} {child : Nat}, (parent, k, child) ∈ t.taken →
      parent ≠ child → parent = target ∨ child = target → k = key

/-- The discipline with what keeps it going: the log is on the tree and has
every recorded edge. -/
structure Ok (t : Traced) : Prop where
  slots : SlotDiscipline t
  edges : ∀ {h : Nat} {s : Shape}, t.tree.get? h = some s →
    ∀ e ∈ s.transitions.edges, (h, e.1.1, e.2) ∈ t.taken
  valid : ∀ {parent : Nat} {key : PropKey} {child : Nat}, (parent, key, child) ∈ t.taken →
    parent < t.tree.shapes.length ∧ child < t.tree.shapes.length

theorem lookup_off {t : ShapeTree} {h : Nat} (hge : t.shapes.length ≤ h) (key : PropKey) :
    t.lookup h key = none := by
  have : t.get? h = none := List.getElem?_eq_none_iff.mpr hge
  simp [ShapeTree.lookup, this]

theorem ok_empty : Ok empty := by
  refine ⟨⟨?_, ?_, ?_, ?_⟩, ?_, ?_⟩
  · intro h key key' slot attrs attrs' hl
    rw [lookup_off (Nat.zero_le _)] at hl
    cases hl
  · intro h key slot attrs hl
    rw [lookup_off (Nat.zero_le _)] at hl
    cases hl
  · intro parent key child hmem
    cases hmem
  · intro parent key child hmem
    cases hmem
  · intro h s hs
    cases hs
  · intro parent key child hmem
    cases hmem

/-! ## §2 Steps that keep it -/

theorem Ok.retake {child : Nat} (ht : Ok t)
    (h : (parent, key, child) ∈ t.taken ∨ (parent = child ∧ parent < t.tree.shapes.length)) :
    Ok ⟨t.tree, (parent, key, child) :: t.taken⟩ := by
  refine ⟨⟨ht.slots.distinct, ht.slots.below, ?_, ?_⟩, ?_, ?_⟩
  · intro parent' key' child' hmem
    rcases List.mem_cons.mp hmem with heq | hmem
    · cases heq
      rcases h with hin | ⟨rfl, -⟩
      · exact ht.slots.grows hin
      · exact Nat.le_refl _
    · exact ht.slots.grows hmem
  · intro parent' key' child' hmem k hne
    rcases List.mem_cons.mp hmem with heq | hmem
    · cases heq
      rcases h with hin | ⟨rfl, -⟩
      · exact ht.slots.others hin k hne
      · rfl
    · exact ht.slots.others hmem k hne
  · intro x s hs e he
    exact List.mem_cons_of_mem _ (ht.edges hs e he)
  · intro parent' key' child' hmem
    rcases List.mem_cons.mp hmem with heq | hmem
    · cases heq
      rcases h with hin | ⟨rfl, hlt⟩
      · exact ht.valid hin
      · exact ⟨hlt, hlt⟩
    · exact ht.valid hmem

theorem Ok.of_sameShape {tree' : ShapeTree} (ht : Ok t)
    (hlen : t.tree.shapes.length ≤ tree'.shapes.length)
    (hsame : ∀ {h : Nat}, h < t.tree.shapes.length → ShapeTree.SameShape t.tree tree' h)
    (hnew : ∀ {h : Nat}, t.tree.shapes.length ≤ h → ∀ key, tree'.lookup h key = none)
    (hedges : ShapeTree.EdgesFrom t.tree tree') : Ok ⟨tree', t.taken⟩ := by
  have hlookup : ∀ (h : Nat) (key : PropKey) (d : Descriptor),
      tree'.lookup h key = some d → h < t.tree.shapes.length ∧ t.tree.lookup h key = some d := by
    intro h key d hd
    by_cases hlt : h < t.tree.shapes.length
    · exact ⟨hlt, (hsame hlt).lookup key ▸ hd⟩
    · rw [hnew (by omega)] at hd
      cases hd
  refine ⟨⟨?_, ?_, ?_, ?_⟩, ?_, ?_⟩
  · intro h key key' slot attrs attrs' hl hl'
    exact ht.slots.distinct (hlookup h key _ hl).2 (hlookup h key' _ hl').2
  · intro h key slot attrs hl
    obtain ⟨hlt, hl⟩ := hlookup h key _ hl
    simp only [(hsame hlt).numOwn]
    exact ht.slots.below hl
  · intro parent key child hmem
    obtain ⟨hp, hc⟩ := ht.valid hmem
    simp only [(hsame hp).numOwn, (hsame hc).numOwn]
    exact ht.slots.grows hmem
  · intro parent key child hmem k hne
    obtain ⟨hp, hc⟩ := ht.valid hmem
    simp only [(hsame hp).lookup, (hsame hc).lookup]
    exact ht.slots.others hmem k hne
  · intro h s hs e he
    obtain ⟨s₀, hs₀, he₀⟩ := hedges hs e he
    exact ht.edges hs₀ e he₀
  · intro parent key child hmem
    obtain ⟨hp, hc⟩ := ht.valid hmem
    exact ⟨by simp only; omega, by simp only; omega⟩

/-- A descriptor list fit for a child of `parent` on `key`: the other keys are
the parent's, and the key's own slot is counted and nobody else's. -/
structure ChildFits (t : ShapeTree) (parent : Nat) (key : PropKey) (ds : List Descriptor)
    (n : Nat) : Prop where
  others : ∀ k, k ≠ key → findIn ds k = t.lookup parent k
  count : t.numOwn parent ≤ n
  counted : ∀ {slot : Nat} {attrs : Attrs}, findIn ds key = some (.data key slot attrs) → slot < n
  fresh : ∀ {slot : Nat} {attrs attrs' : Attrs} {k : PropKey},
    findIn ds key = some (.data key slot attrs) → k ≠ key →
      t.lookup parent k ≠ some (.data k slot attrs')

theorem Ok.newChild {attrs : Attrs} {ds : Descriptors} {n : Nat} (ht : Ok t)
    (hp : parent < t.tree.shapes.length) (hfit : ChildFits t.tree parent key ds.asSlice n) :
    Ok ⟨(t.tree.newChild parent key attrs ds n).1,
      (parent, key, t.tree.shapes.length) :: t.taken⟩ := by
  have hold {h : Nat} (hlt : h < t.tree.shapes.length) :
      ShapeTree.SameShape t.tree (t.tree.newChild parent key attrs ds n).1 h :=
    ShapeTree.sameShape_newChild hlt
  have hself : ∀ k, (t.tree.newChild parent key attrs ds n).1.lookup t.tree.shapes.length k =
      findIn ds.asSlice k := ShapeTree.lookup_newChild_self hp
  have hcount : (t.tree.newChild parent key attrs ds n).1.numOwn t.tree.shapes.length = n :=
    ShapeTree.numOwn_newChild_self hp
  have hlen : (t.tree.newChild parent key attrs ds n).1.shapes.length =
      t.tree.shapes.length + 1 := ShapeTree.length_newChild
  refine ⟨⟨?_, ?_, ?_, ?_⟩, ?_, ?_⟩
  · intro h k₁ k₂ slot a₁ a₂ h₁ h₂
    rcases Nat.lt_trichotomy h t.tree.shapes.length with hlt | rfl | hgt
    · simp only [(hold hlt).lookup] at h₁ h₂
      exact ht.slots.distinct h₁ h₂
    · simp only [hself] at h₁ h₂
      by_cases hk₁ : k₁ = key
      · by_cases hk₂ : k₂ = key
        · rw [hk₁, hk₂]
        · rw [hfit.others k₂ hk₂] at h₂
          exact absurd h₂ (hfit.fresh (hk₁ ▸ h₁) hk₂)
      · rw [hfit.others k₁ hk₁] at h₁
        by_cases hk₂ : k₂ = key
        · exact absurd h₁ (hfit.fresh (hk₂ ▸ h₂) hk₁)
        · rw [hfit.others k₂ hk₂] at h₂
          exact ht.slots.distinct h₁ h₂
    · rw [lookup_off (by simp only [hlen]; omega)] at h₁
      cases h₁
  · intro h k slot a hl
    rcases Nat.lt_trichotomy h t.tree.shapes.length with hlt | rfl | hgt
    · simp only [(hold hlt).lookup] at hl
      simp only [(hold hlt).numOwn]
      exact ht.slots.below hl
    · simp only [hself] at hl
      simp only [hcount]
      by_cases hk : k = key
      · exact hfit.counted (hk ▸ hl)
      · rw [hfit.others k hk] at hl
        exact Nat.lt_of_lt_of_le (ht.slots.below hl) hfit.count
    · rw [lookup_off (by simp only [hlen]; omega)] at hl
      cases hl
  · intro parent' key' child' hmem
    rcases List.mem_cons.mp hmem with heq | hmem
    · cases heq
      simp only [(hold hp).numOwn, hcount]
      exact hfit.count
    · obtain ⟨hp', hc'⟩ := ht.valid hmem
      simp only [(hold hp').numOwn, (hold hc').numOwn]
      exact ht.slots.grows hmem
  · intro parent' key' child' hmem k hne
    rcases List.mem_cons.mp hmem with heq | hmem
    · cases heq
      simp only [(hold hp).lookup, hself]
      exact hfit.others k hne
    · obtain ⟨hp', hc'⟩ := ht.valid hmem
      simp only [(hold hp').lookup, (hold hc').lookup]
      exact ht.slots.others hmem k hne
  · intro h s hs e he
    rcases ShapeTree.edges_newChild hp hs he with ⟨rfl, rfl⟩ | ⟨s₀, hs₀, he₀⟩
    · exact List.mem_cons_self
    · exact List.mem_cons_of_mem _ (ht.edges hs₀ e he₀)
  · intro parent' key' child' hmem
    simp only [hlen]
    rcases List.mem_cons.mp hmem with heq | hmem
    · cases heq
      exact ⟨by omega, by omega⟩
    · obtain ⟨hp', hc'⟩ := ht.valid hmem
      exact ⟨by omega, by omega⟩

theorem Ok.rewriteAccessor {target : Nat} {g s g' s' : Option Nat} {at_ at' : Attrs} (ht : Ok t)
    (hl : t.tree.lookup target key = some (.accessor key g s at_))
    (hsafe : ∀ {parent : Nat} {k : PropKey} {child : Nat}, (parent, k, child) ∈ t.taken →
      parent ≠ child → parent = target ∨ child = target → k = key) :
    Ok ⟨t.tree.rewriteAccessor target key g' s' at', t.taken⟩ := by
  have hdata : ∀ {h : Nat} {k : PropKey} {slot : Nat} {a : Attrs},
      (t.tree.rewriteAccessor target key g' s' at').lookup h k = some (.data k slot a) →
        t.tree.lookup h k = some (.data k slot a) := by
    intro h k slot a hd
    by_cases hk : k = key
    · by_cases hh : target = h
      · subst hk hh
        rw [ShapeTree.lookup_rewriteAccessor_self hl] at hd
        cases hd
      · rwa [(ShapeTree.sameShape_rewriteAccessor hh).lookup] at hd
    · rwa [ShapeTree.lookup_rewriteAccessor_of_ne hk] at hd
  refine ⟨⟨?_, ?_, ?_, ?_⟩, ?_, ?_⟩
  · intro h k₁ k₂ slot a₁ a₂ h₁ h₂
    exact ht.slots.distinct (hdata h₁) (hdata h₂)
  · intro h k slot a hd
    simp only [ShapeTree.numOwn_rewriteAccessor]
    exact ht.slots.below (hdata hd)
  · intro parent k child hmem
    simp only [ShapeTree.numOwn_rewriteAccessor]
    exact ht.slots.grows hmem
  · intro parent k child hmem k' hne
    by_cases hpc : parent = child
    · rw [hpc]
    · by_cases hend : parent = target ∨ child = target
      · have hk : k = key := hsafe hmem hpc hend
        simp only [ShapeTree.lookup_rewriteAccessor_of_ne (hk ▸ hne)]
        exact ht.slots.others hmem k' hne
      · obtain ⟨hp, hc⟩ := not_or.mp hend
        simp only [(ShapeTree.sameShape_rewriteAccessor (Ne.symm hp)).lookup,
          (ShapeTree.sameShape_rewriteAccessor (Ne.symm hc)).lookup]
        exact ht.slots.others hmem k' hne
  · intro h sh hs e he
    obtain ⟨s₀, hs₀, he₀⟩ := ShapeTree.edgesFrom_rewriteAccessor _ _ _ _ _ _ hs e he
    exact ht.edges hs₀ e he₀
  · intro parent k child hmem
    simp only [ShapeTree.length_rewriteAccessor]
    exact ht.valid hmem

/-! ### Children of the three operations fit -/

section Fits

variable {t : Traced} {parent : Nat} {p : Shape} {key : PropKey}

theorem lookup_parent (hp : t.tree.get? parent = some p) (k : PropKey) :
    t.tree.lookup parent k = findIn p.descriptors.asSlice k := by
  simp [ShapeTree.lookup_eq, hp]

theorem numOwn_parent (hp : t.tree.get? parent = some p) : t.tree.numOwn parent = p.numOwn := by
  simp [ShapeTree.numOwn, hp]

theorem childFits_push (ht : SlotDiscipline t) (hp : t.tree.get? parent = some p) {d : Descriptor}
    (hkey : d.key = key) (hd : ∀ {slot : Nat} {attrs : Attrs}, d = .data key slot attrs →
      slot = p.numOwn) :
    ChildFits t.tree parent key (p.descriptors.asSlice ++ [d]) (p.numOwn + 1) := by
  have hfind : ∀ k, findIn (p.descriptors.asSlice ++ [d]) k =
      (t.tree.lookup parent k).or (if d.key = k then some d else none) := by
    intro k
    rw [findIn_append_singleton, lookup_parent hp]
  have hown : ∀ {slot : Nat} {attrs : Attrs},
      findIn (p.descriptors.asSlice ++ [d]) key = some (.data key slot attrs) →
        t.tree.lookup parent key = some (.data key slot attrs) ∨ slot = p.numOwn := by
    intro slot attrs hdata
    rw [hfind, hkey] at hdata
    cases hl : t.tree.lookup parent key with
    | some d' =>
      left
      simpa [hl] using hdata
    | none =>
      right
      exact hd (by simpa [hl] using hdata)
  refine ⟨?_, ?_, ?_, ?_⟩
  · intro k hne
    rw [hfind, hkey, if_neg (Ne.symm hne), Option.or_none]
  · rw [numOwn_parent hp]
    omega
  · intro slot attrs hdata
    rcases hown hdata with hl | rfl
    · have := ht.below hl
      rw [numOwn_parent hp] at this
      omega
    · omega
  · intro slot attrs attrs' k hdata hne hother
    rcases hown hdata with hl | rfl
    · exact hne (ht.distinct hother hl)
    · have := ht.below hother
      rw [numOwn_parent hp] at this
      omega

theorem childFits_toData (ht : SlotDiscipline t) (hp : t.tree.get? parent = some p)
    {slot₀ : Nat} {attrs attrs₀ : Attrs}
    (hl : t.tree.lookup parent key = some (.data key slot₀ attrs₀)) :
    ChildFits t.tree parent key (replaceFirst key
      (fun d => .data key (d.slot.getD p.numOwn) attrs) p.descriptors.asSlice) p.numOwn := by
  have hf : ∀ d : Descriptor, d.key = key →
      (Descriptor.data key (d.slot.getD p.numOwn) attrs).key = key := fun _ _ => rfl
  have hself := findIn_replaceFirst_self hf (lookup_parent hp key ▸ hl)
  have hslot : ∀ {slot : Nat} {a : Attrs}, findIn (replaceFirst key
      (fun d => .data key (d.slot.getD p.numOwn) attrs) p.descriptors.asSlice) key =
        some (.data key slot a) → slot = slot₀ := by
    intro slot a hdata
    rw [hself] at hdata
    simp only [Descriptor.slot, Option.getD_some, Option.some.injEq, Descriptor.data.injEq,
      true_and] at hdata
    exact hdata.1.symm
  refine ⟨?_, ?_, ?_, ?_⟩
  · intro k hne
    rw [findIn_replaceFirst_of_ne hf hne, lookup_parent hp]
  · exact Nat.le_of_eq (numOwn_parent hp)
  · intro slot a hdata
    have := ht.below hl
    rw [numOwn_parent hp] at this
    rw [hslot hdata]
    exact this
  · intro slot a a' k hdata hne hother
    rw [hslot hdata] at hother
    exact hne (ht.distinct hother hl)

end Fits

/-! ## §3 Steps and runs -/

theorem ok_newRoot (ht : Ok t) (reserved : Nat) :
    Ok ⟨t.tree.newRoot reserved, t.taken⟩ := by
  refine ht.of_sameShape ?_ ShapeTree.sameShape_newRoot ?_ (ShapeTree.edgesFrom_newRoot _ _)
  · simp [ShapeTree.newRoot, ShapeTree.alloc]
  · intro h hge key
    rcases Nat.eq_or_lt_of_le hge with rfl | hgt
    · simp [ShapeTree.lookup_eq, ShapeTree.newRoot, ShapeTree.get?_alloc_self, Shape.reserved,
        findIn]
    · exact lookup_off (by simp [ShapeTree.newRoot, ShapeTree.alloc]; omega) key

theorem ok_prune (ht : Ok t) (live : List Nat) :
    Ok ⟨t.tree.prune live, t.taken⟩ := by
  refine ht.of_sameShape ?_ (fun _ => ShapeTree.sameShape_prune t.tree live _) ?_
    (ShapeTree.edgesFrom_prune _ _)
  · simp [ShapeTree.prune]
  · intro h hge key
    exact lookup_off (by simpa [ShapeTree.prune] using hge) key

theorem ok_bind (ht : Ok t) (shape : Nat) : Ok ⟨t.tree.bind shape, t.taken⟩ := by
  refine ht.of_sameShape ?_ (fun _ => ShapeTree.sameShape_bind t.tree shape _) ?_
    (ShapeTree.edgesFrom_bind _ _)
  · exact Nat.le_of_eq (congrArg List.length (ShapeTree.shapes_bind ..)).symm
  · intro h hge key
    exact lookup_off (by rwa [ShapeTree.shapes_bind]) key

theorem step_eq {r : ShapeTree × Nat} (hc : t.tree.call op = some r) :
    t.step op = ⟨r.1, match op.transition with
      | some (parent, key) => (parent, key, r.2) :: t.taken
      | none => t.taken⟩ := by
  cases hop : op.transition <;> simp [step, ShapeTree.step, hc, hop]

theorem step_none (hc : t.tree.call op = none) : t.step op = t := by
  cases hop : op.transition <;> simp [step, ShapeTree.step, hc, hop]

theorem ok_step (ht : Ok t) (hsafe : SlotSafe t op) :
    Ok (t.step op) := by
  cases hc : t.tree.call op with
  | none => rwa [step_none hc]
  | some r =>
    rw [step_eq hc]
    cases op with
    | newRoot reserved =>
      cases hc
      exact ok_newRoot ht reserved
    | addProperty parent key attrs =>
      obtain ⟨p, hp, ⟨child, he, rfl⟩ | ⟨-, rfl⟩⟩ := ShapeTree.addProperty_cases hc
      · exact ht.retake (Or.inl (ht.edges hp _ (Transitions.get_mem he)))
      · refine ht.newChild (ShapeTree.lt_of_get? hp) ?_
        rw [Descriptors.asSlice_push]
        exact childFits_push ht.slots hp rfl (fun h => by cases h; rfl)
    | updateDataAttrs parent key attrs =>
      obtain ⟨p, hp, ⟨child, he, rfl⟩ | ⟨he, d, hd, rfl⟩ | ⟨-, -, rfl⟩⟩ :=
        ShapeTree.updateDataAttrs_cases hc
      · exact ht.retake (Or.inl (ht.edges hp _ (Transitions.get_mem he)))
      · refine ht.newChild (ShapeTree.lt_of_get? hp) ?_
        rw [Descriptors.asSlice_ofList]
        cases d with
        | data k slot a =>
          have hk : k = key := ShapeTree.key_of_lookup hd
          exact childFits_toData ht.slots hp (hk ▸ hd)
        | accessor k g s a =>
          have hk : k = key := ShapeTree.key_of_lookup hd
          exact absurd (hk ▸ hd) (hsafe.toData rfl hp he)
      · refine ht.newChild (ShapeTree.lt_of_get? hp) ?_
        rw [Descriptors.asSlice_ofList]
        exact childFits_push ht.slots hp rfl (fun h => by cases h; rfl)
    | defineAccessor parent key getter setter attrs =>
      have hin {target : Nat} {g s : Option Nat}
          (hm : t.tree.mergeTarget parent key attrs = some (target, g, s)) :
          (parent, key, target) ∈ t.taken ∨ (parent = target ∧ parent < t.tree.shapes.length) := by
        obtain ⟨⟨p, hp, htarget⟩, -⟩ := ShapeTree.mergeTarget_some hm
        cases he : p.transitions.get key attrs with
        | some child =>
          left
          have heq : target = child := by simpa [he] using htarget
          exact heq ▸ ht.edges hp _ (Transitions.get_mem he)
        | none =>
          right
          have heq : target = parent := by simpa [he] using htarget
          exact ⟨heq.symm, ShapeTree.lt_of_get? hp⟩
      obtain ⟨p, hp, ⟨target, g, s, hm, -, rfl⟩ | ⟨target, g, s, hm, hnew, rfl⟩ | ⟨-, rfl⟩⟩ :=
        ShapeTree.defineAccessor_cases hc
      · exact ht.retake (hin hm)
      · obtain ⟨-, at_, hl⟩ := ShapeTree.mergeTarget_some hm
        have hrw : t.tree.rewrites (.defineAccessor parent key getter setter attrs) =
            some (target, key) := by
          simp [ShapeTree.rewrites, hm, hnew]
        have hok : Ok ⟨t.tree.rewriteAccessor target key (getter.or g) (setter.or s) attrs,
            t.taken⟩ := ht.rewriteAccessor hl (hsafe.inPlace hrw)
        refine hok.retake ?_
        simpa using hin hm
      · refine ht.newChild (ShapeTree.lt_of_get? hp) ?_
        rw [Descriptors.asSlice_push]
        exact childFits_push ht.slots hp rfl (fun h => by cases h)
    | prune live =>
      cases hc
      exact ok_prune ht live
    | bind shape =>
      cases hc
      exact ok_bind ht shape

theorem not_below_of_toData {attrs a : Attrs} {p : Shape} {g s : Option Nat}
    (hp : t.tree.get? parent = some p) (he : p.transitions.get key attrs = none)
    (hl : t.tree.lookup parent key = some (.accessor key g s a)) :
    ¬ SlotDiscipline (t.step (.updateDataAttrs parent key attrs)) := by
  have hfind : findIn p.descriptors.asSlice key = some (.accessor key g s a) :=
    lookup_parent hp key ▸ hl
  have hc : t.tree.call (.updateDataAttrs parent key attrs) =
      some (t.tree.newChild parent key attrs (.ofList (replaceFirst key
        (fun d => .data key (d.slot.getD p.numOwn) attrs) p.descriptors.asSlice)) p.numOwn) := by
    simp [ShapeTree.call, ShapeTree.updateDataAttrs, hp, he, hfind]
  have hlt := ShapeTree.lt_of_get? hp
  intro hd
  rw [step_eq hc] at hd
  have hf : ∀ d : Descriptor, d.key = key →
      (Descriptor.data key (d.slot.getD p.numOwn) attrs).key = key := fun _ _ => rfl
  have hself := findIn_replaceFirst_self hf hfind
  have hchild : (t.tree.newChild parent key attrs (.ofList (replaceFirst key
      (fun d => .data key (d.slot.getD p.numOwn) attrs) p.descriptors.asSlice)) p.numOwn).1.lookup
        t.tree.shapes.length key = some (.data key p.numOwn attrs) := by
    rw [ShapeTree.lookup_newChild_self hlt, Descriptors.asSlice_ofList]
    exact hself
  have hslot := hd.below hchild
  simp only [ShapeTree.numOwn_newChild_self hlt] at hslot
  exact Nat.lt_irrefl _ hslot

theorem not_others_of_inPlace {target : Nat} (ht : SlotDiscipline t)
    (hrw : t.tree.rewrites op = some (target, key)) {child : Nat} {k : PropKey}
    (hmem : (parent, k, child) ∈ t.taken) (hpc : parent ≠ child)
    (hend : parent = target ∨ child = target) (hne : k ≠ key) :
    ¬ SlotDiscipline (t.step op) := by
  obtain ⟨g, s, at_, g', s', at', hl, hnew, heq⟩ := ShapeTree.step_of_rewrites hrw
  intro hd
  have hmem' : (parent, k, child) ∈ (t.step op).taken := by
    simp only [step]
    split
    · exact List.mem_cons_of_mem _ hmem
    · exact hmem
  have hafter := hd.others hmem' key (Ne.symm hne)
  have hbefore := ht.others hmem key (Ne.symm hne)
  have htree : (t.step op).tree = t.tree.rewriteAccessor target key g' s' at' := heq
  have hchanged : (t.tree.rewriteAccessor target key g' s' at').lookup target key ≠
      t.tree.lookup target key := by
    rw [ShapeTree.lookup_rewriteAccessor_self hl, hl]
    intro hsame
    simp only [Option.some.injEq, Descriptor.accessor.injEq, true_and] at hsame
    exact hnew ⟨hsame.1, hsame.2.1⟩
  rw [htree] at hafter
  rcases hend with rfl | rfl
  · rw [(ShapeTree.sameShape_rewriteAccessor hpc).lookup] at hafter
    exact hchanged (hafter.symm.trans hbefore)
  · rw [(ShapeTree.sameShape_rewriteAccessor (Ne.symm hpc)).lookup] at hafter
    exact hchanged (hafter.trans hbefore.symm)

theorem not_slotDiscipline_step (ht : SlotDiscipline t) (h : ¬ SlotSafe t op) :
    ¬ SlotDiscipline (t.step op) := by
  intro hd
  refine h ⟨?_, ?_⟩
  · rintro parent key attrs p g s attrs' rfl hp he hl
    exact not_below_of_toData hp he hl hd
  · intro target key hrw parent k child hmem hpc hend
    by_contra hne
    exact not_others_of_inPlace ht hrw hmem hpc hend hne hd

theorem ok_run {ops : List ShapeOp} (h : Lib.StepsMeet step SlotSafe empty ops) :
    Ok (runOps ops) := Lib.run_invariant (fun _ _ ht hs => ok_step ht hs) ok_empty h

/-- **The slot discipline holds throughout a run exactly when every step of
the run is safe.** -/
theorem slotDiscipline_iff (ops : List ShapeOp) :
    (∀ before after, ops = before ++ after →
      SlotDiscipline (runOps before) ∧ WritesSeparate (runOps before)) ↔
    Lib.StepsMeet step SlotSafe empty ops := by
  constructor
  · intro hall
    by_contra hfail
    obtain ⟨before, op, after, heq, -, hbad⟩ := Lib.exists_first_failure hfail
    have hbefore := (hall before (op :: after) heq).1
    have hafter := (hall (before ++ [op]) after (by simp [heq])).1
    refine not_slotDiscipline_step hbefore hbad ?_
    simpa [runOps] using hafter
  · intro hmeet before after heq
    rw [heq, Lib.stepsMeet_append] at hmeet
    have hd := (ok_run hmeet.1).slots
    exact ⟨hd, hd.writesSeparate⟩

def aliasingOps : List ShapeOp :=
  [.newRoot 0, .defineAccessor 0 (.string 1) (some 10) none .default,
   .updateDataAttrs 1 (.string 1) .builtin, .addProperty 2 (.string 2) .default]

/-- Both properties of shape 3 have slot 1. -/
theorem slots_alias :
    (runOps aliasingOps).tree.lookup 3 (.string 1) = some (.data (.string 1) 1 .builtin) ∧
    (runOps aliasingOps).tree.lookup 3 (.string 2) = some (.data (.string 2) 1 .default) ∧
    ¬ SlotDiscipline (runOps aliasingOps) := by
  have h₁ : (runOps aliasingOps).tree.lookup 3 (.string 1) =
      some (.data (.string 1) 1 .builtin) := by decide
  have h₂ : (runOps aliasingOps).tree.lookup 3 (.string 2) =
      some (.data (.string 2) 1 .default) := by decide
  refine ⟨h₁, h₂, ?_⟩
  intro hd
  exact absurd (hd.distinct h₁ h₂) (by decide)

end Traced

end V12.Heap
