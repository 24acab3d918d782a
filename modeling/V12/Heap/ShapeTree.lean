/-
V12.Heap.ShapeTree — the shape operations of `v12-heap/src/gc.rs`.

A tree is the shape space (a handle is a position) with the shapes that
objects have been bound to. A reclaimed shape's handle is not handed out
again: nothing live can name it.
-/
import V12.Heap.Shape
import V12.Lib.Run

namespace V12.Heap

structure ShapeTree where
  shapes : List Shape
  /-- Shapes some object has been bound to, pinned by `bind_shape`. -/
  bound : List Nat

namespace ShapeTree

def empty : ShapeTree := ⟨[], []⟩

def get? (t : ShapeTree) (h : Nat) : Option Shape := t.shapes[h]?

/-- `lookup_property`. -/
def lookup (t : ShapeTree) (h : Nat) (key : PropKey) : Option Descriptor :=
  (t.get? h).bind (fun s => s.findDescriptor key)

def numOwn (t : ShapeTree) (h : Nat) : Nat := ((t.get? h).map Shape.numOwn).getD 0

/-! ## §1 Primitive changes -/

def alloc (t : ShapeTree) (s : Shape) : ShapeTree := { t with shapes := t.shapes ++ [s] }

def modify (t : ShapeTree) (h : Nat) (f : Shape → Shape) : ShapeTree :=
  { t with shapes := t.shapes.modify h f }

/-- Allocates a child and records the parent's edge to it. -/
def newChild (t : ShapeTree) (parent : Nat) (key : PropKey) (attrs : Attrs)
    (descriptors : Descriptors) (numOwn : Nat) : ShapeTree × Nat :=
  let child := t.shapes.length
  ((t.alloc ⟨some parent, .empty, descriptors, numOwn⟩).modify parent
    (fun s => { s with transitions := s.transitions.insert key attrs child }), child)

/-- Writes an accessor over the first record of its key, in place. -/
def rewriteAccessor (t : ShapeTree) (h : Nat) (key : PropKey) (getter setter : Option Nat)
    (attrs : Attrs) : ShapeTree :=
  t.modify h fun s => { s with
    descriptors := .ofList
      (replaceFirst key (fun _ => .accessor key getter setter attrs) s.descriptors.asSlice) }

/-- A fresh root, `Shape::reserved`. -/
def newRoot (t : ShapeTree) (reserved : Nat) : ShapeTree := t.alloc (.reserved reserved)

/-- `prune_shape_transitions`: live shapes drop their edges to dead ones. -/
def prune (t : ShapeTree) (live : List Nat) : ShapeTree :=
  { t with shapes := t.shapes.mapIdx fun i s =>
      if i ∈ live then
        { s with transitions := s.transitions.retain (fun e => e.2 ∈ live) }
      else s }

/-- The shape half of `bind_shape`: an object now describes itself by `h`. -/
def bind (t : ShapeTree) (h : Nat) : ShapeTree :=
  if h < t.shapes.length then { t with bound := h :: t.bound } else t

/-! ## §2 The operations -/

/-- `add_property`. -/
def addProperty (t : ShapeTree) (parent : Nat) (key : PropKey) (attrs : Attrs) :
    Option (ShapeTree × Nat) :=
  match t.get? parent with
  | none => none
  | some p =>
    match p.transitions.get key attrs with
    | some existing => some (t, existing)
    | none =>
      some (t.newChild parent key attrs (p.descriptors.push (.data key p.numOwn attrs))
        (p.numOwn + 1))

/-- `update_data_attrs`: the first record of the key becomes a data record;
an accessor's record gets slot `num_own` without a new slot being counted. -/
def updateDataAttrs (t : ShapeTree) (parent : Nat) (key : PropKey) (attrs : Attrs) :
    Option (ShapeTree × Nat) :=
  match t.get? parent with
  | none => none
  | some p =>
    match p.transitions.get key attrs with
    | some existing => some (t, existing)
    | none =>
      let list := p.descriptors.asSlice
      if (findIn list key).isSome then
        let toData (d : Descriptor) : Descriptor := .data key (d.slot.getD p.numOwn) attrs
        some (t.newChild parent key attrs (.ofList (replaceFirst key toData list)) p.numOwn)
      else
        some (t.newChild parent key attrs (.ofList (list ++ [.data key p.numOwn attrs]))
          (p.numOwn + 1))

/-- The accessor a `define_accessor` call merges into: the one of the child on
the `(key, attrs)` edge, or, without an edge, the parent's own. -/
def mergeTarget (t : ShapeTree) (parent : Nat) (key : PropKey) (attrs : Attrs) :
    Option (Nat × Option Nat × Option Nat) :=
  match t.get? parent with
  | none => none
  | some p =>
    let target := (p.transitions.get key attrs).getD parent
    match t.lookup target key with
    | some (.accessor _ g s _) => some (target, g, s)
    | _ => none

/-- `define_accessor`. -/
def defineAccessor (t : ShapeTree) (parent : Nat) (key : PropKey)
    (getter setter : Option Nat) (attrs : Attrs) : Option (ShapeTree × Nat) :=
  match t.get? parent with
  | none => none
  | some p =>
    match t.mergeTarget parent key attrs with
    | some (target, g, s) =>
      if getter.or g = g ∧ setter.or s = s then some (t, target)
      else some (t.rewriteAccessor target key (getter.or g) (setter.or s) attrs, target)
    | none =>
      some (t.newChild parent key attrs (p.descriptors.push (.accessor key getter setter attrs))
        (p.numOwn + 1))

end ShapeTree

/-! ## §3 Runs -/

inductive ShapeOp where
  | newRoot (reserved : Nat)
  | addProperty (parent : Nat) (key : PropKey) (attrs : Attrs)
  | updateDataAttrs (parent : Nat) (key : PropKey) (attrs : Attrs)
  | defineAccessor (parent : Nat) (key : PropKey) (getter setter : Option Nat)
      (attrs : Attrs)
  | prune (live : List Nat)
  | bind (shape : Nat)
  deriving DecidableEq, Repr

namespace ShapeTree

variable {t : ShapeTree} {h parent : Nat} {key : PropKey} {s : Shape} {attrs : Attrs}
  {r : ShapeTree × Nat}

/-- The shape an operation returns, with the tree it leaves. An operation on a
handle off the tree does nothing. -/
def call (t : ShapeTree) : ShapeOp → Option (ShapeTree × Nat)
  | .newRoot reserved => some (t.newRoot reserved, t.shapes.length)
  | .addProperty parent key attrs => t.addProperty parent key attrs
  | .updateDataAttrs parent key attrs => t.updateDataAttrs parent key attrs
  | .defineAccessor parent key getter setter attrs =>
    t.defineAccessor parent key getter setter attrs
  | .prune live => some (t.prune live, 0)
  | .bind shape => some (t.bind shape, shape)

def step (t : ShapeTree) (op : ShapeOp) : ShapeTree := ((t.call op).map Prod.fst).getD t

/-- The tree after a sequence of operations from the empty heap. -/
def runOps (ops : List ShapeOp) : ShapeTree := Lib.run step empty ops

/-! ## §4 What each change does to lookups, slot counts and edges -/

theorem lookup_eq (t : ShapeTree) (h : Nat) (key : PropKey) :
    t.lookup h key = (t.get? h).bind (fun s => findIn s.descriptors.asSlice key) := by
  simp only [lookup, Shape.findDescriptor_eq]

theorem key_of_lookup {d : Descriptor} (hd : t.lookup h key = some d) : d.key = key := by
  rw [lookup_eq] at hd
  obtain ⟨s, -, hfind⟩ := Option.bind_eq_some_iff.mp hd
  exact findIn_key hfind

theorem get?_modify (t : ShapeTree) (h h' : Nat) (f : Shape → Shape) :
    (t.modify h f).get? h' = if h = h' then (t.get? h').map f else t.get? h' := by
  simp only [get?, modify, List.getElem?_modify]
  split <;> simp

theorem get?_alloc_lt (hlt : h < t.shapes.length) :
    (t.alloc s).get? h = t.get? h := by
  simp only [get?, alloc]
  exact List.getElem?_append_left hlt

theorem get?_alloc_self (t : ShapeTree) (s : Shape) :
    (t.alloc s).get? t.shapes.length = some s := by
  simp [get?, alloc]

theorem lt_of_get? (hs : t.get? h = some s) :
    h < t.shapes.length := (List.getElem?_eq_some_iff.mp hs).1

/-- Two trees describe the old handles alike. -/
structure SameShape (t t' : ShapeTree) (h : Nat) : Prop where
  lookup : ∀ key, t'.lookup h key = t.lookup h key
  numOwn : t'.numOwn h = t.numOwn h

theorem sameShape_of_get? {t' : ShapeTree} {f : Shape → Shape} (hget : t'.get? h = (t.get? h).map f)
    (hd : ∀ s, (f s).descriptors = s.descriptors) (hn : ∀ s, (f s).numOwn = s.numOwn) :
    SameShape t t' h := by
  constructor
  · intro key
    simp only [lookup_eq, hget]
    cases t.get? h <;> simp [hd]
  · simp only [ShapeTree.numOwn, hget]
    cases t.get? h <;> simp [hn]

theorem sameShape_of_eq {t' : ShapeTree} (hget : t'.get? h = t.get? h) :
    SameShape t t' h := by
  constructor
  · intro key
    simp only [lookup, hget]
  · simp only [ShapeTree.numOwn, hget]

section NewChild

variable {t : ShapeTree} {parent h : Nat} {key : PropKey} {attrs : Attrs} {ds : Descriptors}
  {n : Nat}

@[simp] theorem length_newChild :
    (t.newChild parent key attrs ds n).1.shapes.length = t.shapes.length + 1 := by
  simp [newChild, modify, alloc]

@[simp] theorem bound_newChild : (t.newChild parent key attrs ds n).1.bound = t.bound := rfl

theorem get?_newChild_lt (hlt : h < t.shapes.length) :
    (t.newChild parent key attrs ds n).1.get? h = (t.get? h).map fun s =>
      if parent = h then { s with transitions := s.transitions.insert key attrs t.shapes.length }
      else s := by
  by_cases hp : parent = h
  · simp [newChild, get?_modify, hp, get?_alloc_lt hlt]
  · simp [newChild, get?_modify, hp, get?_alloc_lt hlt]

theorem sameShape_newChild (hlt : h < t.shapes.length) :
    SameShape t (t.newChild parent key attrs ds n).1 h := by
  refine sameShape_of_get? (get?_newChild_lt hlt) ?_ ?_
  · intro s
    split <;> rfl
  · intro s
    split <;> rfl

theorem get?_newChild_self (hp : parent < t.shapes.length) :
    (t.newChild parent key attrs ds n).1.get? t.shapes.length =
      some ⟨some parent, .empty, ds, n⟩ := by
  have hne : parent ≠ t.shapes.length := by omega
  simp [newChild, get?_modify, hne, get?_alloc_self]

theorem lookup_newChild_self (hp : parent < t.shapes.length) (k : PropKey) :
    (t.newChild parent key attrs ds n).1.lookup t.shapes.length k = findIn ds.asSlice k := by
  rw [lookup_eq, get?_newChild_self hp]
  rfl

theorem numOwn_newChild_self (hp : parent < t.shapes.length) :
    (t.newChild parent key attrs ds n).1.numOwn t.shapes.length = n := by
  rw [numOwn, get?_newChild_self hp]
  rfl

end NewChild

section Rewrite

variable {t : ShapeTree} {h h' : Nat} {key : PropKey} {getter setter : Option Nat}
  {attrs : Attrs}

@[simp] theorem length_rewriteAccessor :
    (t.rewriteAccessor h key getter setter attrs).shapes.length = t.shapes.length := by
  simp [rewriteAccessor, modify]

@[simp] theorem bound_rewriteAccessor :
    (t.rewriteAccessor h key getter setter attrs).bound = t.bound := rfl

theorem sameShape_rewriteAccessor (hne : h ≠ h') :
    SameShape t (t.rewriteAccessor h key getter setter attrs) h' := by
  refine sameShape_of_eq ?_
  simp [rewriteAccessor, get?_modify, hne]

theorem lookup_rewriteAccessor_of_ne {k : PropKey} (hne : k ≠ key) :
    (t.rewriteAccessor h key getter setter attrs).lookup h' k = t.lookup h' k := by
  by_cases hh : h = h'
  · simp only [lookup_eq, rewriteAccessor, get?_modify, hh, if_true]
    cases t.get? h' with
    | none => rfl
    | some s =>
      have hf : ∀ d : Descriptor, d.key = key →
          (Descriptor.accessor key getter setter attrs).key = key := fun _ _ => rfl
      simp [findIn_replaceFirst_of_ne hf hne]
  · exact (sameShape_rewriteAccessor hh).lookup k

theorem lookup_rewriteAccessor_self {d : Descriptor} (hd : t.lookup h key = some d) :
    (t.rewriteAccessor h key getter setter attrs).lookup h key =
      some (.accessor key getter setter attrs) := by
  simp only [lookup_eq] at hd
  simp only [lookup_eq, rewriteAccessor, get?_modify, if_true]
  cases hs : t.get? h with
  | none => simp [hs] at hd
  | some s =>
    simp only [hs, Option.bind_some] at hd
    have hf : ∀ d : Descriptor, d.key = key →
        (Descriptor.accessor key getter setter attrs).key = key := fun _ _ => rfl
    simp [findIn_replaceFirst_self hf hd]

theorem numOwn_rewriteAccessor :
    (t.rewriteAccessor h key getter setter attrs).numOwn h' = t.numOwn h' := by
  simp only [numOwn, rewriteAccessor, get?_modify]
  split
  · cases t.get? h' <;> rfl
  · rfl

end Rewrite

theorem sameShape_newRoot {reserved : Nat} (hlt : h < t.shapes.length) :
    SameShape t (t.newRoot reserved) h :=
  sameShape_of_eq (get?_alloc_lt hlt)

theorem get?_prune (t : ShapeTree) (live : List Nat) (h : Nat) :
    (t.prune live).get? h = (t.get? h).map fun s =>
      if h ∈ live then { s with transitions := s.transitions.retain (fun e => e.2 ∈ live) }
      else s := by
  simp [prune, get?, List.getElem?_mapIdx]

theorem sameShape_prune (t : ShapeTree) (live : List Nat) (h : Nat) :
    SameShape t (t.prune live) h := by
  refine sameShape_of_get? (get?_prune t live h) ?_ ?_
  · intro s
    split <;> rfl
  · intro s
    split <;> rfl

theorem sameShape_bind (t : ShapeTree) (h h' : Nat) : SameShape t (t.bind h) h' := by
  refine sameShape_of_eq ?_
  unfold bind
  split <;> rfl

/-- Every edge recorded in `t'` is recorded in `t`. -/
def EdgesFrom (t t' : ShapeTree) : Prop :=
  ∀ {h : Nat} {s : Shape}, t'.get? h = some s → ∀ e ∈ s.transitions.edges,
    ∃ s₀, t.get? h = some s₀ ∧ e ∈ s₀.transitions.edges

theorem edgesFrom_newRoot (t : ShapeTree) (reserved : Nat) : EdgesFrom t (t.newRoot reserved) := by
  intro h s hs e he
  have hlt := lt_of_get? hs
  simp only [newRoot, alloc, List.length_append, List.length_singleton] at hlt
  rcases Nat.lt_succ_iff_lt_or_eq.mp hlt with hlt | rfl
  · rw [newRoot, get?_alloc_lt hlt] at hs
    exact ⟨s, hs, he⟩
  · rw [newRoot, get?_alloc_self] at hs
    cases hs
    cases he

theorem edgesFrom_prune (t : ShapeTree) (live : List Nat) : EdgesFrom t (t.prune live) := by
  intro h s hs e he
  rw [get?_prune] at hs
  obtain ⟨s₀, hs₀, rfl⟩ := Option.map_eq_some_iff.mp hs
  refine ⟨s₀, hs₀, ?_⟩
  split at he
  case isTrue =>
    rw [Transitions.edges_retain] at he
    exact (List.mem_filter.mp he).1
  case isFalse => exact he

theorem shapes_bind (t : ShapeTree) (h : Nat) : (t.bind h).shapes = t.shapes := by
  unfold bind
  split <;> rfl

theorem edgesFrom_bind (t : ShapeTree) (h : Nat) : EdgesFrom t (t.bind h) := by
  intro x s hs e he
  refine ⟨s, ?_, he⟩
  rwa [get?, shapes_bind] at hs

theorem edgesFrom_rewriteAccessor (t : ShapeTree) (h : Nat) (key : PropKey)
    (getter setter : Option Nat) (attrs : Attrs) :
    EdgesFrom t (t.rewriteAccessor h key getter setter attrs) := by
  intro x s hs e he
  simp only [rewriteAccessor, get?_modify] at hs
  split at hs
  case isTrue =>
    obtain ⟨s₀, hs₀, rfl⟩ := Option.map_eq_some_iff.mp hs
    exact ⟨s₀, hs₀, he⟩
  case isFalse => exact ⟨s, hs, he⟩

theorem edges_newChild {ds : Descriptors} {n : Nat} (hp : parent < t.shapes.length)
    (hs : (t.newChild parent key attrs ds n).1.get? h = some s) {e : Edge}
    (he : e ∈ s.transitions.edges) :
    (h = parent ∧ e = ((key, attrs), t.shapes.length)) ∨
      ∃ s₀, t.get? h = some s₀ ∧ e ∈ s₀.transitions.edges := by
  have hlt := lt_of_get? hs
  rw [length_newChild] at hlt
  rcases Nat.lt_succ_iff_lt_or_eq.mp hlt with hlt | rfl
  · rw [get?_newChild_lt hlt] at hs
    obtain ⟨s₀, hs₀, rfl⟩ := Option.map_eq_some_iff.mp hs
    by_cases hph : parent = h
    · simp only [hph, if_true] at he
      rcases Transitions.mem_edges_insert he with heq | he
      · exact Or.inl ⟨hph.symm, heq⟩
      · exact Or.inr ⟨s₀, hs₀, he⟩
    · simp only [hph, if_false] at he
      exact Or.inr ⟨s₀, hs₀, he⟩
  · rw [get?_newChild_self hp, Option.some.injEq] at hs
    subst hs
    cases he

/-! ## §5 What each operation can do -/

theorem addProperty_cases (h : t.addProperty parent key attrs = some r) :
    ∃ p, t.get? parent = some p ∧
      ((∃ child, p.transitions.get key attrs = some child ∧ r = (t, child)) ∨
       (p.transitions.get key attrs = none ∧
        r = t.newChild parent key attrs (p.descriptors.push (.data key p.numOwn attrs))
          (p.numOwn + 1))) := by
  unfold addProperty at h
  cases hp : t.get? parent with
  | none => simp [hp] at h
  | some p =>
    refine ⟨p, rfl, ?_⟩
    simp only [hp] at h
    cases he : p.transitions.get key attrs with
    | none =>
      simp only [he, Option.some.injEq] at h
      exact Or.inr ⟨rfl, h.symm⟩
    | some child =>
      simp only [he, Option.some.injEq] at h
      exact Or.inl ⟨child, rfl, h.symm⟩

theorem updateDataAttrs_cases (h : t.updateDataAttrs parent key attrs = some r) :
    ∃ p, t.get? parent = some p ∧
      ((∃ child, p.transitions.get key attrs = some child ∧ r = (t, child)) ∨
       (p.transitions.get key attrs = none ∧ (∃ d, t.lookup parent key = some d ∧
        r = t.newChild parent key attrs (.ofList (replaceFirst key
          (fun d => .data key (d.slot.getD p.numOwn) attrs) p.descriptors.asSlice)) p.numOwn)) ∨
       (p.transitions.get key attrs = none ∧ t.lookup parent key = none ∧
        r = t.newChild parent key attrs
          (.ofList (p.descriptors.asSlice ++ [.data key p.numOwn attrs])) (p.numOwn + 1))) := by
  unfold updateDataAttrs at h
  cases hp : t.get? parent with
  | none => simp [hp] at h
  | some p =>
    refine ⟨p, rfl, ?_⟩
    have hlookup : t.lookup parent key = findIn p.descriptors.asSlice key := by
      simp [lookup_eq, hp]
    simp only [hp] at h
    cases he : p.transitions.get key attrs with
    | some child =>
      simp only [he, Option.some.injEq] at h
      exact Or.inl ⟨child, rfl, h.symm⟩
    | none =>
      simp only [he] at h
      cases hd : findIn p.descriptors.asSlice key with
      | some d =>
        simp only [hd, Option.isSome_some, if_true, Option.some.injEq] at h
        exact Or.inr (Or.inl ⟨rfl, d, by rw [hlookup, hd], h.symm⟩)
      | none =>
        simp only [hd, Option.isSome_none, Bool.false_eq_true, if_false, Option.some.injEq] at h
        exact Or.inr (Or.inr ⟨rfl, by rw [hlookup, hd], h.symm⟩)

theorem mergeTarget_some {target : Nat} {g s : Option Nat}
    (h : t.mergeTarget parent key attrs = some (target, g, s)) :
    (∃ p, t.get? parent = some p ∧ target = (p.transitions.get key attrs).getD parent) ∧
    ∃ at_, t.lookup target key = some (.accessor key g s at_) := by
  unfold mergeTarget at h
  cases hp : t.get? parent with
  | none => simp [hp] at h
  | some p =>
    simp only [hp] at h
    split at h
    case h_1 k g' s' at_ hl =>
      cases h
      refine ⟨⟨p, rfl, rfl⟩, at_, ?_⟩
      have hk : k = key := key_of_lookup hl
      rw [hl, hk]
    case h_2 => cases h

theorem defineAccessor_cases {getter setter : Option Nat}
    (h : t.defineAccessor parent key getter setter attrs = some r) :
    ∃ p, t.get? parent = some p ∧
      ((∃ target g s, t.mergeTarget parent key attrs = some (target, g, s) ∧
        (getter.or g = g ∧ setter.or s = s) ∧ r = (t, target)) ∨
       (∃ target g s, t.mergeTarget parent key attrs = some (target, g, s) ∧
        ¬ (getter.or g = g ∧ setter.or s = s) ∧
        r = (t.rewriteAccessor target key (getter.or g) (setter.or s) attrs, target)) ∨
       (t.mergeTarget parent key attrs = none ∧
        r = t.newChild parent key attrs (p.descriptors.push (.accessor key getter setter attrs))
          (p.numOwn + 1))) := by
  unfold defineAccessor at h
  cases hp : t.get? parent with
  | none => simp [hp] at h
  | some p =>
    refine ⟨p, rfl, ?_⟩
    simp only [hp] at h
    cases hm : t.mergeTarget parent key attrs with
    | none =>
      simp only [hm, Option.some.injEq] at h
      exact Or.inr (Or.inr ⟨rfl, h.symm⟩)
    | some m =>
      obtain ⟨target, g, s⟩ := m
      simp only [hm] at h
      split at h
      case isTrue hsame => exact Or.inl ⟨target, g, s, rfl, hsame, (Option.some.inj h).symm⟩
      case isFalse hnew =>
        exact Or.inr (Or.inl ⟨target, g, s, rfl, hnew, (Option.some.inj h).symm⟩)

/-- The in-place rewrite a step makes, if it makes one. -/
def rewrites (t : ShapeTree) : ShapeOp → Option (Nat × PropKey)
  | .defineAccessor parent key getter setter attrs =>
    match t.mergeTarget parent key attrs with
    | some (target, g, s) =>
      if getter.or g = g ∧ setter.or s = s then none else some (target, key)
    | none => none
  | _ => none

/-- What a step that rewrites no accessor does to a tree. -/
inductive Change (t : ShapeTree) : ShapeTree → Prop
  | same : Change t t
  | newRoot (reserved : Nat) : Change t (t.newRoot reserved)
  | newChild (parent : Nat) (key : PropKey) (attrs : Attrs) (descriptors : Descriptors)
      (numOwn : Nat) : Change t (t.newChild parent key attrs descriptors numOwn).1
  | prune (live : List Nat) : Change t (t.prune live)
  | bind (shape : Nat) : Change t (t.bind shape)

theorem change_step {op : ShapeOp} (hrw : t.rewrites op = none) : Change t (t.step op) := by
  unfold step
  cases hc : t.call op with
  | none => exact .same
  | some r =>
    simp only [Option.map_some, Option.getD_some]
    cases op with
    | newRoot reserved =>
      cases hc
      exact .newRoot reserved
    | addProperty parent key attrs =>
      obtain ⟨p, -, ⟨child, -, rfl⟩ | ⟨-, rfl⟩⟩ := addProperty_cases hc
      · exact .same
      · exact .newChild ..
    | updateDataAttrs parent key attrs =>
      obtain ⟨p, -, ⟨child, -, rfl⟩ | ⟨-, d, -, rfl⟩ | ⟨-, -, rfl⟩⟩ := updateDataAttrs_cases hc
      · exact .same
      · exact .newChild ..
      · exact .newChild ..
    | defineAccessor parent key getter setter attrs =>
      obtain ⟨p, -, ⟨target, g, s, -, -, rfl⟩ | ⟨target, g, s, hm, hnew, -⟩ | ⟨-, rfl⟩⟩ :=
        defineAccessor_cases hc
      · exact .same
      · simp [rewrites, hm, hnew] at hrw
      · exact .newChild ..
    | prune live =>
      cases hc
      exact .prune live
    | bind shape =>
      cases hc
      exact .bind shape

theorem sameShape_step {op : ShapeOp} (hrw : t.rewrites op = none) (hlt : h < t.shapes.length) :
    SameShape t (t.step op) h := by
  have hchange := change_step hrw
  generalize t.step op = t' at hchange ⊢
  cases hchange with
  | same => exact ⟨fun _ => rfl, rfl⟩
  | newRoot reserved => exact sameShape_newRoot hlt
  | newChild parent key attrs descriptors numOwn => exact sameShape_newChild hlt
  | prune live => exact sameShape_prune t live h
  | bind shape => exact sameShape_bind t shape h

theorem step_of_rewrites {op : ShapeOp} {target : Nat} (hrw : t.rewrites op = some (target, key)) :
    ∃ g s at_ g' s' at', t.lookup target key = some (.accessor key g s at_) ∧
      ¬ (g' = g ∧ s' = s) ∧ t.step op = t.rewriteAccessor target key g' s' at' := by
  cases op with
  | defineAccessor parent k getter setter attrs =>
    simp only [rewrites] at hrw
    split at hrw
    case h_1 target' g s hm =>
      split at hrw
      case isTrue => cases hrw
      case isFalse hnew =>
        cases hrw
        obtain ⟨⟨p, hp, -⟩, at_, hl⟩ := mergeTarget_some hm
        refine ⟨g, s, at_, getter.or g, setter.or s, attrs, hl, hnew, ?_⟩
        simp [step, call, defineAccessor, hp, hm, hnew]
    case h_2 => cases hrw
  | _ => simp [rewrites] at hrw

theorem length_step_le (t : ShapeTree) (op : ShapeOp) :
    t.shapes.length ≤ (t.step op).shapes.length := by
  cases hrw : t.rewrites op with
  | some r =>
    obtain ⟨g, s, at_, g', s', at', -, -, heq⟩ := step_of_rewrites hrw
    rw [heq]
    exact Nat.le_of_eq (length_rewriteAccessor ..).symm
  | none =>
    have hchange := change_step hrw
    generalize t.step op = t' at hchange ⊢
    cases hchange with
    | bind shape =>
      unfold bind
      split <;> simp
    | _ => simp [newRoot, alloc, prune]

end ShapeTree

end V12.Heap
