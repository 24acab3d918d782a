/-
V12.Heap.ShapeKinds — what the shape returned by a transition says about
the transition's own key.

`add_property` should describe the key as data with the given attributes,
`define_accessor` as an accessor with the given halves, completed by the
parent's own.
-/
import V12.Heap.ShapeTree

namespace V12.Heap

namespace ShapeTree

variable {t : ShapeTree} {parent : Nat} {key : PropKey} {attrs : Attrs} {p : Shape}

/-- The child on the parent's `(key, attrs)` edge. -/
def edge? (t : ShapeTree) (parent : Nat) (key : PropKey) (attrs : Attrs) : Option Nat :=
  (t.get? parent).bind (fun p => p.transitions.get key attrs)

def halves : Option Descriptor → Option Nat × Option Nat
  | some (.accessor _ g s _) => (g, s)
  | _ => (none, none)

def isDataWith (attrs : Attrs) : Option Descriptor → Bool
  | some (.data _ _ a) => a = attrs
  | _ => false

def isAccessor : Option Descriptor → Bool
  | some (.accessor ..) => true
  | _ => false

/-- The returned shape describes the transition's key as the call asks: data
with exactly its attributes, or an accessor with exactly its halves, a half
not given being the one of the parent's own accessor. -/
def Described (t : ShapeTree) (op : ShapeOp) : Prop :=
  ∀ r, t.call op = some r →
    match op with
    | .addProperty _ key attrs => isDataWith attrs (r.1.lookup r.2 key) = true
    | .defineAccessor parent key getter setter _ =>
      isAccessor (r.1.lookup r.2 key) = true ∧
        halves (r.1.lookup r.2 key) =
          (getter.or (halves (t.lookup parent key)).1, setter.or (halves (t.lookup parent key)).2)
    | _ => True

/-- What earlier calls left on the edge and in the parent does not get in the
way of the call. -/
def kindSafe (t : ShapeTree) : ShapeOp → Bool
  | .addProperty parent key attrs =>
    match t.edge? parent key attrs with
    | some child => !isAccessor (t.lookup child key)
    | none => (t.lookup parent key).isNone || isDataWith attrs (t.lookup parent key)
  | .defineAccessor parent key getter setter attrs =>
    let own := halves (t.lookup parent key)
    match t.edge? parent key attrs with
    | some child =>
      if isAccessor (t.lookup child key) then
        getter.or (halves (t.lookup child key)).1 = getter.or own.1 ∧
          setter.or (halves (t.lookup child key)).2 = setter.or own.2
      else (t.lookup parent key).isNone ||
        (isAccessor (t.lookup parent key) && getter.or own.1 = own.1 && setter.or own.2 = own.2)
    | none => (t.lookup parent key).isNone || isAccessor (t.lookup parent key)
  | _ => true

/-! ## §1 What edges lead to -/

/-- Every edge leads to a shape of the tree that describes the edge's key as
data with the edge's attributes, or as an accessor. -/
def EdgesDescribe (t : ShapeTree) : Prop :=
  ∀ (h : Nat) (s : Shape), t.get? h = some s → ∀ e ∈ s.transitions.edges,
    e.2 < t.shapes.length ∧
      (isDataWith e.1.2 (t.lookup e.2 e.1.1) = true ∨ isAccessor (t.lookup e.2 e.1.1) = true)

theorem edgesDescribe_empty : EdgesDescribe empty := by
  intro h s hs
  cases hs

theorem EdgesDescribe.of_sameShape {t' : ShapeTree} (ht : EdgesDescribe t)
    (hlen : t.shapes.length ≤ t'.shapes.length)
    (hsame : ∀ {h : Nat}, h < t.shapes.length → SameShape t t' h) (hedges : EdgesFrom t t') :
    EdgesDescribe t' := by
  intro h s hs e he
  obtain ⟨s₀, hs₀, he₀⟩ := hedges hs e he
  obtain ⟨hlt, hdesc⟩ := ht h s₀ hs₀ e he₀
  rw [(hsame hlt).lookup]
  exact ⟨Nat.lt_of_lt_of_le hlt hlen, hdesc⟩

theorem EdgesDescribe.newChild {ds : Descriptors} {n : Nat} (ht : EdgesDescribe t)
    (hp : parent < t.shapes.length) (hd : isDataWith attrs (findIn ds.asSlice key) = true ∨
      isAccessor (findIn ds.asSlice key) = true) :
    EdgesDescribe (t.newChild parent key attrs ds n).1 := by
  intro h s hs e he
  rw [length_newChild]
  rcases edges_newChild hp hs he with ⟨-, rfl⟩ | ⟨s₀, hs₀, he₀⟩
  · rw [lookup_newChild_self hp]
    exact ⟨by simp only; omega, hd⟩
  · obtain ⟨hlt, hdesc⟩ := ht h s₀ hs₀ e he₀
    rw [(sameShape_newChild hlt).lookup]
    exact ⟨by omega, hdesc⟩

theorem EdgesDescribe.rewriteAccessor {target : Nat} {d : Descriptor} {getter setter : Option Nat}
    (ht : EdgesDescribe t) (hl : t.lookup target key = some d) :
    EdgesDescribe (t.rewriteAccessor target key getter setter attrs) := by
  intro h s hs e he
  obtain ⟨s₀, hs₀, he₀⟩ := edgesFrom_rewriteAccessor _ _ _ _ _ _ hs e he
  obtain ⟨hlt, hdesc⟩ := ht h s₀ hs₀ e he₀
  rw [length_rewriteAccessor]
  refine ⟨hlt, ?_⟩
  by_cases hh : target = e.2
  · by_cases hk : e.1.1 = key
    · subst hh hk
      rw [lookup_rewriteAccessor_self hl]
      exact Or.inr rfl
    · rw [lookup_rewriteAccessor_of_ne hk]
      exact hdesc
  · rw [(sameShape_rewriteAccessor hh).lookup]
    exact hdesc

theorem edge?_eq (hp : t.get? parent = some p) :
    t.edge? parent key attrs = p.transitions.get key attrs := by
  simp [edge?, hp]

theorem lookup_parent (hp : t.get? parent = some p) :
    t.lookup parent key = findIn p.descriptors.asSlice key := by
  simp [lookup_eq, hp]

theorem EdgesDescribe.edge (ht : EdgesDescribe t) {child : Nat} (hp : t.get? parent = some p)
    (he : p.transitions.get key attrs = some child) :
    isDataWith attrs (t.lookup child key) = true ∨ isAccessor (t.lookup child key) = true :=
  (ht parent p hp _ (Transitions.get_mem he)).2

/-! ## §2 One step -/

theorem find_push {d : Descriptor} (hp : t.get? parent = some p) :
    findIn (p.descriptors.push d).asSlice d.key = (t.lookup parent d.key).or (some d) := by
  rw [Descriptors.asSlice_push, findIn_append_singleton, lookup_parent hp, if_pos rfl]

theorem mergeTarget_eq (hp : t.get? parent = some p) (key : PropKey) (attrs : Attrs) :
    t.mergeTarget parent key attrs =
      let target := (t.edge? parent key attrs).getD parent
      if isAccessor (t.lookup target key) then
        some (target, (halves (t.lookup target key)).1, (halves (t.lookup target key)).2)
      else none := by
  simp only [mergeTarget, hp, edge?_eq hp]
  cases hl : t.lookup ((p.transitions.get key attrs).getD parent) key with
  | none => rfl
  | some d => cases d <;> rfl

theorem not_isAccessor_of_isDataWith {d : Option Descriptor} (h : isDataWith attrs d = true) :
    isAccessor d = false := by
  unfold isDataWith at h
  split at h
  case h_1 => rfl
  case h_2 => cases h

theorem described_addProperty (ht : EdgesDescribe t) :
    Described t (.addProperty parent key attrs) ↔
      t.kindSafe (.addProperty parent key attrs) = true := by
  cases hp : t.get? parent with
  | none =>
    have hnone : t.lookup parent key = none := by simp [lookup, hp]
    simp [Described, call, addProperty, kindSafe, edge?, hp, hnone]
  | some p =>
    cases he : p.transitions.get key attrs with
    | some child =>
      have hedge := ht.edge hp he
      simp only [Described, call, addProperty, kindSafe, hp, he, edge?_eq hp, Option.some.injEq,
        forall_eq', Bool.not_eq_true']
      constructor
      · exact not_isAccessor_of_isDataWith
      · intro hacc
        rcases hedge with hdata | hacc'
        · exact hdata
        · rw [hacc] at hacc'
          cases hacc'
    | none =>
      have hself := find_push (d := .data key p.numOwn attrs) hp
      simp only [Descriptor.key] at hself
      simp only [Described, call, addProperty, kindSafe, hp, he, edge?_eq hp, Option.some.injEq,
        forall_eq']
      rw [show (t.newChild parent key attrs (p.descriptors.push (.data key p.numOwn attrs))
        (p.numOwn + 1)).2 = t.shapes.length from rfl, lookup_newChild_self (lt_of_get? hp), hself]
      cases t.lookup parent key with
      | none => simp [isDataWith]
      | some d => simp

theorem merged_halves {target : Nat} (getter setter : Option Nat) (attrs : Attrs)
    (hacc : isAccessor (t.lookup target key) = true) {r : ShapeTree × Nat}
    (hr : r = if getter.or (halves (t.lookup target key)).1 = (halves (t.lookup target key)).1 ∧
        setter.or (halves (t.lookup target key)).2 = (halves (t.lookup target key)).2 then (t, target)
      else (t.rewriteAccessor target key (getter.or (halves (t.lookup target key)).1)
        (setter.or (halves (t.lookup target key)).2) attrs, target)) :
    isAccessor (r.1.lookup r.2 key) = true ∧
      halves (r.1.lookup r.2 key) = (getter.or (halves (t.lookup target key)).1,
        setter.or (halves (t.lookup target key)).2) := by
  cases hl : t.lookup target key with
  | none => simp [hl, isAccessor] at hacc
  | some d =>
    split at hr
    case isTrue hsame =>
      subst hr
      rw [hl] at hsame hacc
      exact ⟨by rw [hl]; exact hacc, by rw [hl, hsame.1, hsame.2]⟩
    case isFalse =>
      subst hr
      simp only [lookup_rewriteAccessor_self hl, hl]
      exact ⟨rfl, rfl⟩

section DefineAccessor

variable {t : ShapeTree} {parent : Nat} {p : Shape} {key : PropKey} {getter setter : Option Nat}
  {attrs : Attrs}

theorem described_of_merge (hp : t.get? parent = some p)
    (hacc : isAccessor (t.lookup ((t.edge? parent key attrs).getD parent) key) = true) :
    Described t (.defineAccessor parent key getter setter attrs) ↔
      getter.or (halves (t.lookup ((t.edge? parent key attrs).getD parent) key)).1 =
          getter.or (halves (t.lookup parent key)).1 ∧
        setter.or (halves (t.lookup ((t.edge? parent key attrs).getD parent) key)).2 =
          setter.or (halves (t.lookup parent key)).2 := by
  have hm := mergeTarget_eq hp key attrs
  simp only [hacc, if_true] at hm
  simp only [Described, call, defineAccessor, hp, hm]
  rw [← apply_ite some]
  simp only [Option.some.injEq, forall_eq']
  obtain ⟨hisAcc, hhalves⟩ := merged_halves getter setter attrs hacc rfl
  rw [hhalves]
  simp only [hisAcc, true_and, Prod.mk.injEq]

theorem described_of_fresh (hp : t.get? parent = some p)
    (hacc : isAccessor (t.lookup ((t.edge? parent key attrs).getD parent) key) = false) :
    Described t (.defineAccessor parent key getter setter attrs) ↔
      t.lookup parent key = none ∨ (isAccessor (t.lookup parent key) = true ∧
        getter.or (halves (t.lookup parent key)).1 = (halves (t.lookup parent key)).1 ∧
          setter.or (halves (t.lookup parent key)).2 = (halves (t.lookup parent key)).2) := by
  have hm := mergeTarget_eq hp key attrs
  simp only [hacc, Bool.false_eq_true, if_false] at hm
  have hself := find_push (d := .accessor key getter setter attrs) hp
  simp only [Descriptor.key] at hself
  have hlookup : (t.newChild parent key attrs
      (p.descriptors.push (.accessor key getter setter attrs)) (p.numOwn + 1)).1.lookup
        (t.newChild parent key attrs (p.descriptors.push (.accessor key getter setter attrs))
          (p.numOwn + 1)).2 key =
      (t.lookup parent key).or (some (.accessor key getter setter attrs)) :=
    (lookup_newChild_self (lt_of_get? hp) key).trans hself
  simp only [Described, call, defineAccessor, hp, hm, Option.some.injEq, forall_eq', hlookup]
  cases hl : t.lookup parent key with
  | none => simp [isAccessor, halves]
  | some d =>
    simp only [Option.some_or, reduceCtorEq, false_or]
    cases d with
    | data k slot a => simp [isAccessor]
    | accessor k g s a => simp [isAccessor, halves, eq_comm]

theorem described_defineAccessor :
    Described t (.defineAccessor parent key getter setter attrs) ↔
      t.kindSafe (.defineAccessor parent key getter setter attrs) = true := by
  cases hp : t.get? parent with
  | none =>
    have hnone : t.lookup parent key = none := by simp [lookup, hp]
    simp [Described, call, defineAccessor, kindSafe, edge?, hp, hnone]
  | some p =>
    cases hacc : isAccessor (t.lookup ((t.edge? parent key attrs).getD parent) key) with
    | true =>
      rw [described_of_merge hp hacc]
      cases he : t.edge? parent key attrs with
      | some child =>
        simp only [he, Option.getD_some] at hacc
        simp [kindSafe, he, hacc]
      | none =>
        simp only [he, Option.getD_none] at hacc
        simp [kindSafe, he, hacc]
    | false =>
      rw [described_of_fresh hp hacc]
      cases he : t.edge? parent key attrs with
      | some child =>
        simp only [he, Option.getD_some] at hacc
        simp [kindSafe, he, hacc, and_assoc]
      | none =>
        simp only [he, Option.getD_none] at hacc
        simp [kindSafe, he, hacc]

end DefineAccessor

theorem edgesDescribe_step {op : ShapeOp} (ht : EdgesDescribe t) (hsafe : t.kindSafe op = true) :
    EdgesDescribe (t.step op) := by
  unfold step
  cases hc : t.call op with
  | none => exact ht
  | some r =>
    simp only [Option.map_some, Option.getD_some]
    cases op with
    | newRoot reserved =>
      cases hc
      refine ht.of_sameShape ?_ sameShape_newRoot (edgesFrom_newRoot _ _)
      simp [newRoot, alloc]
    | addProperty parent key attrs =>
      obtain ⟨p, hp, ⟨child, -, rfl⟩ | ⟨he, rfl⟩⟩ := addProperty_cases hc
      · exact ht
      · refine ht.newChild (lt_of_get? hp) ?_
        have hself := find_push (d := .data key p.numOwn attrs) hp
        simp only [Descriptor.key] at hself
        simp only [kindSafe, edge?_eq hp, he, Bool.or_eq_true, Option.isNone_iff_eq_none] at hsafe
        rw [hself]
        rcases hsafe with hnone | hdata
        · rw [hnone]
          exact Or.inl (by simp [isDataWith])
        · cases hl : t.lookup parent key with
          | none => simp [hl, isDataWith] at hdata
          | some d =>
            rw [hl] at hdata
            exact Or.inl hdata
    | updateDataAttrs parent key attrs =>
      obtain ⟨p, hp, ⟨child, -, rfl⟩ | ⟨-, d, hd, rfl⟩ | ⟨-, hnone, rfl⟩⟩ :=
        updateDataAttrs_cases hc
      · exact ht
      · refine ht.newChild (lt_of_get? hp) (Or.inl ?_)
        have hf : ∀ d : Descriptor, d.key = key →
            (Descriptor.data key (d.slot.getD p.numOwn) attrs).key = key := fun _ _ => rfl
        rw [Descriptors.asSlice_ofList, findIn_replaceFirst_self hf (lookup_parent hp ▸ hd)]
        simp [isDataWith]
      · refine ht.newChild (lt_of_get? hp) (Or.inl ?_)
        rw [Descriptors.asSlice_ofList, findIn_append_singleton, ← lookup_parent hp, hnone]
        simp [Descriptor.key, isDataWith]
    | defineAccessor parent key getter setter attrs =>
      have hdesc := described_defineAccessor.mpr hsafe r hc
      obtain ⟨p, hp, ⟨target, g, s, -, -, rfl⟩ | ⟨target, g, s, hm, -, rfl⟩ | ⟨-, rfl⟩⟩ :=
        defineAccessor_cases hc
      · exact ht
      · obtain ⟨-, at_, hl⟩ := mergeTarget_some hm
        exact ht.rewriteAccessor hl
      · refine ht.newChild (lt_of_get? hp) (Or.inr ?_)
        rw [← lookup_newChild_self (lt_of_get? hp)]
        exact hdesc.1
    | prune live =>
      cases hc
      refine ht.of_sameShape ?_ (fun _ => sameShape_prune t live _) (edgesFrom_prune _ _)
      simp [prune]
    | bind shape =>
      cases hc
      refine ht.of_sameShape ?_ (fun _ => sameShape_bind t shape _) (edgesFrom_bind _ _)
      exact Nat.le_of_eq (congrArg List.length (shapes_bind ..)).symm

/-! ## §3 Runs -/

theorem described_iff (ht : EdgesDescribe t) (op : ShapeOp) :
    Described t op ↔ t.kindSafe op = true := by
  cases op with
  | addProperty parent key attrs => exact described_addProperty ht
  | defineAccessor parent key getter setter attrs => exact described_defineAccessor
  | _ => simp [Described, kindSafe]

theorem edgesDescribe_run {ops : List ShapeOp}
    (h : Lib.StepsMeet step (fun t op => t.kindSafe op = true) empty ops) :
    EdgesDescribe (runOps ops) :=
  Lib.run_invariant (fun _ _ ht hs => edgesDescribe_step ht hs) edgesDescribe_empty h

/-- **Every call of a kind-safe run answers as asked.** -/
theorem described_of_kindSafe (ops : List ShapeOp)
    (h : Lib.StepsMeet step (fun t op => t.kindSafe op = true) empty ops) :
    ∀ before op after, ops = before ++ op :: after → Described (runOps before) op := by
  intro before op after heq
  have hsafe := h.at_step heq
  rw [heq, Lib.stepsMeet_append] at h
  exact (described_iff (edgesDescribe_run h.1) op).mpr hsafe

def literalOps : List ShapeOp :=
  [.newRoot 0, .defineAccessor 0 (.string 1) (some 10) none .enumerableAccessor,
   .defineAccessor 1 (.string 1) none (some 20) .enumerableAccessor,
   .addProperty 1 (.string 2) .default]

/-- The second half merges into the first: the shape has both. -/
theorem described_literal : Described (runOps (literalOps.take 2))
    (.defineAccessor 1 (.string 1) none (some 20) .enumerableAccessor) :=
  described_of_kindSafe literalOps (by decide) (literalOps.take 2) _ (literalOps.drop 3) rfl

/-- That is not exactly the getter and setter of the call, which has no getter. -/
theorem defineAccessor_merges :
    ((runOps (literalOps.take 2)).call
      (.defineAccessor 1 (.string 1) none (some 20) .enumerableAccessor)).map
        (fun r => halves (r.1.lookup r.2 (.string 1))) = some (some 10, some 20) ∧
    (some 10, some 20) ≠ ((none, some 20) : Option Nat × Option Nat) := by
  decide

end ShapeTree

end V12.Heap
