/-
V12.Heap.ShapeCalls — the shape operations on the collected heap.

`add_property`, `update_data_attrs` and `define_accessor` of
`v12-heap/src/gc.rs` as they run on the heap whose shape slots are swept
and handed out again. `Plain` says what a live shape keeps through them:
its data records and its absent keys; only accessors are completed in
place.
-/
import V12.Heap.TraceTheorems

namespace V12.Heap

variable {h : Heap} {i : Nat} {s : Shape} {key : PropKey}

/-! ## §1 The operations -/

def shapeAt (h : Heap) (i : Nat) : Option Shape := h.get (.shapes, i)

/-- Allocates a child and records the parent's edge to it. -/
def newChild (h : Heap) (parent : Nat) (p : Shape) (key : PropKey) (attrs : Attrs)
    (descriptors : Descriptors) (numOwn : Nat) : Heap × Nat :=
  let child := (h.alloc .shapes (⟨some parent, .empty, descriptors, numOwn⟩ : Shape)).2
  let linked : Shape := { p with transitions := p.transitions.insert key attrs child }
  ((h.alloc .shapes (⟨some parent, .empty, descriptors, numOwn⟩ : Shape)).1.write .shapes parent
    linked, child)

/-- Writes an accessor over the first record of its key, in place. -/
def rewriteAccessor (h : Heap) (target : Nat) (s : Shape) (key : PropKey)
    (getter setter : Option Nat) (attrs : Attrs) : Heap :=
  let rewritten : Shape := { s with
    descriptors := .ofList
      (replaceFirst key (fun _ => .accessor key getter setter attrs) s.descriptors.asSlice) }
  h.write .shapes target rewritten

/-- `add_property`. -/
def addProperty (h : Heap) (parent : Nat) (key : PropKey) (attrs : Attrs) : Option (Heap × Nat) :=
  match h.shapeAt parent with
  | none => none
  | some p =>
    match p.transitions.get key attrs with
    | some existing => some (h, existing)
    | none =>
      some (h.newChild parent p key attrs (p.descriptors.push (.data key p.numOwn attrs))
        (p.numOwn + 1))

/-- `update_data_attrs`. -/
def updateDataAttrs (h : Heap) (parent : Nat) (key : PropKey) (attrs : Attrs) :
    Option (Heap × Nat) :=
  match h.shapeAt parent with
  | none => none
  | some p =>
    match p.transitions.get key attrs with
    | some existing => some (h, existing)
    | none =>
      let list := p.descriptors.asSlice
      if (findIn list key).isSome then
        let toData (d : Descriptor) : Descriptor := .data key (d.slot.getD p.numOwn) attrs
        some (h.newChild parent p key attrs (.ofList (replaceFirst key toData list)) p.numOwn)
      else
        some (h.newChild parent p key attrs (.ofList (list ++ [.data key p.numOwn attrs]))
          (p.numOwn + 1))

/-- The shape holding the accessor a `define_accessor` call merges into. -/
def mergeTarget (h : Heap) (parent : Nat) (p : Shape) (key : PropKey) (attrs : Attrs) :
    Option (Nat × Shape × Option Nat × Option Nat) :=
  let target := (p.transitions.get key attrs).getD parent
  match h.shapeAt target with
  | none => none
  | some s =>
    match s.findDescriptor key with
    | some (.accessor _ g w _) => some (target, s, g, w)
    | _ => none

/-- `define_accessor`. -/
def defineAccessor (h : Heap) (parent : Nat) (key : PropKey) (getter setter : Option Nat)
    (attrs : Attrs) : Option (Heap × Nat) :=
  match h.shapeAt parent with
  | none => none
  | some p =>
    match h.mergeTarget parent p key attrs with
    | some (target, s, g, w) =>
      if getter.or g = g ∧ setter.or w = w then some (h, target)
      else some (h.rewriteAccessor target s key (getter.or g) (setter.or w) attrs, target)
    | none =>
      some (h.newChild parent p key attrs (p.descriptors.push (.accessor key getter setter attrs))
        (p.numOwn + 1))

/-! ## §2 What a live shape keeps -/

/-- The plain part of a lookup: a data slot, or nothing at all. -/
inductive Plain where
  | slot (n : Nat)
  | absent

def Shape.Answers (s : Shape) (key : PropKey) : Plain → Prop
  | .slot n => ∃ attrs, findIn s.descriptors.asSlice key = some (.data key n attrs)
  | .absent => findIn s.descriptors.asSlice key = none

/-- A live shape of the heap answers a key plainly. -/
def Answers (h : Heap) (i : Nat) (key : PropKey) (p : Plain) : Prop :=
  h.isAlive (.shapes, i) = true ∧ ∃ s, h.shapeAt i = some s ∧ s.Answers key p

/-- What later lookups rely on: live slots stay live, plain answers stand, and
objects keep their kind. -/
structure Stable (h h' : Heap) : Prop where
  alive : ∀ r, h.isAlive r = true → h'.isAlive r = true
  answers : ∀ i key p, h.Answers i key p → h'.Answers i key p
  kind : ∀ (i : Nat) (o : JsObject), h.isAlive (.objects, i) = true →
    h.get (.objects, i) = some o → ∃ o', h'.get (.objects, i) = some o' ∧ o'.kind = o.kind

theorem Stable.refl (h : Heap) : Stable h h :=
  ⟨fun _ hr => hr, fun _ _ _ hp => hp, fun _ o _ ho => ⟨o, ho, rfl⟩⟩

theorem Stable.trans {h₁ h₂ h₃ : Heap} (h₁₂ : Stable h₁ h₂) (h₂₃ : Stable h₂ h₃) : Stable h₁ h₃ := by
  refine ⟨fun r hr => h₂₃.alive r (h₁₂.alive r hr),
    fun i key p hp => h₂₃.answers i key p (h₁₂.answers i key p hp), fun i o halive ho => ?_⟩
  obtain ⟨o', ho', hkind⟩ := h₁₂.kind i o halive ho
  obtain ⟨o'', ho'', hkind'⟩ := h₂₃.kind i o' (h₁₂.alive _ halive) ho'
  exact ⟨o'', ho'', hkind'.trans hkind⟩

theorem Grows.stable {h' : Heap} (hgrow : Grows h h') : Stable h h' := by
  refine ⟨hgrow.alive, fun i key p ⟨halive, s, hs, hp⟩ => ?_, fun i o halive ho => ?_⟩
  · exact ⟨hgrow.alive _ halive, s, (hgrow.contents _ halive).trans hs, hp⟩
  · exact ⟨o, (hgrow.contents _ halive).trans ho, rfl⟩

theorem shape_ne_object (i j : Nat) : ((.shapes, i) : Ref) ≠ (.objects, j) := by simp

theorem stable_write_shape {s' : Shape} (halive : h.isAlive (.shapes, i) = true)
    (hget : h.shapeAt i = some s) (hkeep : ∀ key p, s.Answers key p → s'.Answers key p) :
    Stable h (h.write .shapes i s') := by
  refine ⟨fun r hr => (isAlive_write h _ _ _ r).trans hr, fun j key p ⟨hj, t, ht, hp⟩ => ?_,
    fun j o _ ho => ⟨o, (get_write_of_ne h _ (shape_ne_object i j)).trans ho, rfl⟩⟩
  refine ⟨(isAlive_write h _ _ _ _).trans hj, ?_⟩
  by_cases hij : j = i
  · subst hij
    rw [hget] at ht
    obtain rfl := Option.some.inj ht
    exact ⟨s', get_write_self hj s', hkeep key p hp⟩
  · refine ⟨t, ?_, hp⟩
    have hne : ((.shapes, i) : Ref) ≠ (.shapes, j) := fun heq => hij (congrArg Prod.snd heq).symm
    exact (get_write_of_ne h _ hne).trans ht

/-! ## §3 What the operations change -/

/-- A change of the shape space that keeps the heap sound and the objects as they
are. -/
structure ShapeStep (h h' : Heap) : Prop where
  sound : Sound h'
  stable : Stable h h'
  objects : ∀ (i : Nat) (o : JsObject), h'.isAlive (.objects, i) = true →
    h'.get (.objects, i) = some o → h.isAlive (.objects, i) = true ∧ h.get (.objects, i) = some o
  shapeRoots : h'.shapeRoots = h.shapeRoots

theorem ShapeStep.refl (hs : Sound h) : ShapeStep h h :=
  ⟨hs, Stable.refl h, fun _ _ halive hget => ⟨halive, hget⟩, rfl⟩

theorem write_shape_step (hs : Sound h) {s' : Shape} (halive : h.isAlive (.shapes, i) = true)
    (hget : h.shapeAt i = some s) (hlive : h.CellLive .shapes s')
    (hkeep : ∀ key p, s.Answers key p → s'.Answers key p) :
    ShapeStep h (h.write .shapes i s') := by
  refine ⟨write_sound hs halive hlive, stable_write_shape halive hget hkeep, fun j o hj ho => ?_, rfl⟩
  rw [isAlive_write] at hj
  rw [get_write_of_ne h _ (shape_ne_object i j)] at ho
  exact ⟨hj, ho⟩

theorem alloc_shape_step (hs : Sound h) (hlive : h.CellLive .shapes s) :
    ShapeStep h (h.alloc .shapes s).1 := by
  have hgrow := alloc_grows hs.ledgers hlive
  refine ⟨hs.grow (alloc_ledgers hs.ledgers _ _) hgrow, hgrow.stable, fun j o hj ho => ?_, rfl⟩
  rcases born_alloc hs.ledgers hj ho with hold | heq
  · exact ⟨hold, (hgrow.contents _ hold).symm.trans ho⟩
  · cases heq

theorem ShapeStep.trans {h₁ h₂ h₃ : Heap} (h₁₂ : ShapeStep h₁ h₂) (h₂₃ : ShapeStep h₂ h₃) :
    ShapeStep h₁ h₃ := by
  refine ⟨h₂₃.sound, h₁₂.stable.trans h₂₃.stable, fun i o halive hget => ?_,
    h₂₃.shapeRoots.trans h₁₂.shapeRoots⟩
  obtain ⟨halive', hget'⟩ := h₂₃.objects i o halive hget
  exact h₁₂.objects i o halive' hget'

theorem records_live (hs : Sound h) (halive : h.isAlive (.shapes, i) = true)
    (hget : h.shapeAt i = some s) :
    ∀ r ∈ trace s.descriptors.asSlice, h.isAlive r = true := fun r hr =>
  hs.cells .shapes i s halive hget r (List.mem_append_left _ (List.mem_append_right _ hr))

theorem newChild_step (hs : Sound h) {parent : Nat} {p : Shape}
    (halive : h.isAlive (.shapes, parent) = true) (hp : h.shapeAt parent = some p) (key : PropKey)
    (attrs : Attrs) {ds : Descriptors} (hds : ∀ r ∈ trace ds.asSlice, h.isAlive r = true)
    (numOwn : Nat) : ShapeStep h (h.newChild parent p key attrs ds numOwn).1 := by
  have hchild : h.CellLive .shapes (⟨some parent, .empty, ds, numOwn⟩ : Shape) := by
    intro r hr
    rcases List.mem_append.mp hr with hr | hr
    · rcases List.mem_append.mp hr with hr | hr
      · rw [List.mem_singleton.mp hr]
        exact halive
      · exact hds r hr
    · cases hr
  have hgrow := alloc_grows hs.ledgers hchild
  have halloc := alloc_shape_step hs hchild
  refine halloc.trans (write_shape_step halloc.sound (hgrow.alive _ halive)
    ((hgrow.contents _ halive).trans hp) ?_ fun _ _ hkeep => hkeep)
  intro r hr
  rcases List.mem_append.mp hr with hr | hr
  · exact hgrow.alive r (hs.cells .shapes parent p halive hp r (List.mem_append_left _ hr))
  · obtain ⟨e, he, rfl⟩ := List.mem_map.mp hr
    rcases Transitions.mem_edges_insert he with rfl | hold
    · exact isAlive_alloc hs.ledgers .shapes _
    · refine hgrow.alive _ (hs.cells .shapes parent p halive hp _ (List.mem_append_right _ ?_))
      exact List.mem_map_of_mem hold

theorem mem_trace_replaceFirst {f : Descriptor → Descriptor} {ds : List Descriptor} {r : Ref}
    (hr : r ∈ trace (replaceFirst key f ds)) :
    r ∈ trace ds ∨ ∃ x, findIn ds key = some x ∧ r ∈ trace (f x) := by
  obtain ⟨d, hd, hrd⟩ := mem_trace_list.mp hr
  rcases mem_replaceFirst hd with hold | ⟨x, -, -, hfind, rfl⟩
  · exact Or.inl (mem_trace_list.mpr ⟨d, hold, hrd⟩)
  · exact Or.inr ⟨x, hfind, hrd⟩

theorem answers_rewrite {d : Descriptor} (hacc : findIn s.descriptors.asSlice key = some d)
    (hd : d.isAccessor = true) {f : Descriptor → Descriptor}
    (hf : ∀ d, d.key = key → (f d).key = key) {other : PropKey} {p : Plain}
    (hp : s.Answers other p) :
    Shape.Answers { s with
      descriptors := .ofList (replaceFirst key f s.descriptors.asSlice) } other p := by
  have hne : other ≠ key := by
    rintro rfl
    cases p with
    | slot n =>
      obtain ⟨attrs, hslot⟩ := hp
      rw [hacc] at hslot
      rw [Option.some.inj hslot] at hd
      cases hd
    | absent =>
      have hnone : findIn s.descriptors.asSlice other = none := hp
      rw [hacc] at hnone
      cases hnone
  have hsame : findIn (Descriptors.ofList (replaceFirst key f s.descriptors.asSlice)).asSlice other =
      findIn s.descriptors.asSlice other := by
    rw [Descriptors.asSlice_ofList]
    exact findIn_replaceFirst_of_ne hf hne
  cases p with
  | slot n =>
    obtain ⟨attrs, hslot⟩ := hp
    exact ⟨attrs, hsame.trans hslot⟩
  | absent => exact hsame.trans hp

/-- The slots a new record of `key` reports are live. -/
structure RecordLive (h : Heap) (key : PropKey) (getter setter : Option Nat) : Prop where
  key : h.isAlive key.slot = true
  getter : ∀ g, getter = some g → h.isAlive (.objects, g) = true
  setter : ∀ w, setter = some w → h.isAlive (.objects, w) = true

theorem RecordLive.data {getter setter : Option Nat} (hr : RecordLive h key getter setter)
    (slot : Nat) (attrs : Attrs) :
    ∀ r ∈ trace (Descriptor.data key slot attrs), h.isAlive r = true := by
  intro r hmem
  rw [List.mem_singleton.mp hmem]
  exact hr.key

theorem RecordLive.accessor {getter setter : Option Nat} (hr : RecordLive h key getter setter)
    (attrs : Attrs) :
    ∀ r ∈ trace (Descriptor.accessor key getter setter attrs), h.isAlive r = true := by
  intro r hmem
  rcases List.mem_cons.mp hmem with rfl | hmem
  · exact hr.key
  · rcases List.mem_append.mp hmem with hmem | hmem
    · obtain ⟨g, hg, rfl⟩ := mem_traceHandle.mp hmem
      exact hr.getter g hg
    · obtain ⟨w, hw, rfl⟩ := mem_traceHandle.mp hmem
      exact hr.setter w hw

theorem append_live {ds : List Descriptor} {d : Descriptor}
    (hds : ∀ r ∈ trace ds, h.isAlive r = true) (hd : ∀ r ∈ trace d, h.isAlive r = true) :
    ∀ r ∈ trace (ds ++ [d]), h.isAlive r = true := by
  intro r hr
  obtain ⟨x, hx, hrx⟩ := mem_trace_list.mp hr
  rcases List.mem_append.mp hx with hx | hx
  · exact hds r (mem_trace_list.mpr ⟨x, hx, hrx⟩)
  · rw [List.mem_singleton.mp hx] at hrx
    exact hd r hrx

section Calls

variable {h h' : Heap} {parent i : Nat} {key : PropKey} {attrs : Attrs} {getter setter : Option Nat}

theorem addProperty_step (hs : Sound h) (halive : h.isAlive (.shapes, parent) = true)
    (hrecord : RecordLive h key none none) (hcall : h.addProperty parent key attrs = some (h', i)) :
    ShapeStep h h' := by
  unfold addProperty at hcall
  split at hcall
  case h_1 => cases hcall
  case h_2 p hp =>
    split at hcall
    case h_1 =>
      cases hcall
      exact ShapeStep.refl hs
    case h_2 =>
      cases hcall
      refine newChild_step hs halive hp key attrs ?_ _
      rw [Descriptors.asSlice_push]
      exact append_live (records_live hs halive hp) (hrecord.data _ _)

theorem updateDataAttrs_step (hs : Sound h) (halive : h.isAlive (.shapes, parent) = true)
    (hrecord : RecordLive h key none none)
    (hcall : h.updateDataAttrs parent key attrs = some (h', i)) : ShapeStep h h' := by
  unfold updateDataAttrs at hcall
  split at hcall
  case h_1 => cases hcall
  case h_2 p hp =>
    split at hcall
    case h_1 =>
      cases hcall
      exact ShapeStep.refl hs
    case h_2 =>
      simp only [] at hcall
      split at hcall
      case isTrue =>
        cases hcall
        refine newChild_step hs halive hp key attrs (fun r hr => ?_) _
        rw [Descriptors.asSlice_ofList] at hr
        rcases mem_trace_replaceFirst hr with hold | ⟨x, -, hnew⟩
        · exact records_live hs halive hp r hold
        · exact hrecord.data _ _ r hnew
      case isFalse =>
        cases hcall
        refine newChild_step hs halive hp key attrs ?_ _
        rw [Descriptors.asSlice_ofList]
        exact append_live (records_live hs halive hp) (hrecord.data _ _)

theorem mergeTarget_some {p : Shape} {target : Nat} {s : Shape} {g w : Option Nat}
    (hm : h.mergeTarget parent p key attrs = some (target, s, g, w)) :
    target = (p.transitions.get key attrs).getD parent ∧ h.shapeAt target = some s ∧
      ∃ old, findIn s.descriptors.asSlice key = some (.accessor key g w old) := by
  unfold mergeTarget at hm
  simp only [] at hm
  split at hm
  case h_1 => cases hm
  case h_2 t ht =>
    split at hm
    case h_1 k g' w' old hfind =>
      cases hm
      rw [Shape.findDescriptor_eq] at hfind
      have hkey : (Descriptor.accessor k g w old).key = key := findIn_key hfind
      simp only [Descriptor.key] at hkey
      subst hkey
      exact ⟨rfl, ht, old, hfind⟩
    case h_2 => cases hm

theorem defineAccessor_step (hs : Sound h) (halive : h.isAlive (.shapes, parent) = true)
    (hrecord : RecordLive h key getter setter)
    (hcall : h.defineAccessor parent key getter setter attrs = some (h', i)) : ShapeStep h h' := by
  unfold defineAccessor at hcall
  split at hcall
  case h_1 => cases hcall
  case h_2 p hp =>
    split at hcall
    case h_2 =>
      cases hcall
      refine newChild_step hs halive hp key attrs ?_ _
      rw [Descriptors.asSlice_push]
      exact append_live (records_live hs halive hp) (hrecord.accessor _)
    case h_1 target s g w hm =>
      obtain ⟨htarget, ht, old, hfind⟩ := mergeTarget_some hm
      -- the target is the parent or the child on one of its edges
      have hlive : h.isAlive (.shapes, target) = true := by
        rw [htarget]
        cases hedge : p.transitions.get key attrs with
        | none => exact halive
        | some child =>
          refine hs.cells .shapes parent p halive hp _ (List.mem_append_right _ ?_)
          exact List.mem_map.mpr ⟨((key, attrs), child), Transitions.get_mem hedge, rfl⟩
      split at hcall
      case isTrue =>
        cases hcall
        exact ShapeStep.refl hs
      case isFalse =>
        cases hcall
        have holdrefs := records_live hs hlive ht
        have hmerged : RecordLive h key (getter.or g) (setter.or w) := by
          refine ⟨hrecord.key, fun x hx => ?_, fun x hx => ?_⟩
          · rcases Option.or_eq_some_iff.mp hx with hx | ⟨-, hx⟩
            · exact hrecord.getter x hx
            · refine holdrefs _ (mem_trace_list.mpr ⟨_, findIn_mem hfind, ?_⟩)
              exact List.mem_cons_of_mem _ (List.mem_append_left _ (mem_traceHandle.mpr ⟨x, hx, rfl⟩))
          · rcases Option.or_eq_some_iff.mp hx with hx | ⟨-, hx⟩
            · exact hrecord.setter x hx
            · refine holdrefs _ (mem_trace_list.mpr ⟨_, findIn_mem hfind, ?_⟩)
              exact List.mem_cons_of_mem _ (List.mem_append_right _ (mem_traceHandle.mpr ⟨x, hx, rfl⟩))
        refine write_shape_step hs hlive ht (fun r hr => ?_) fun other p hp =>
          answers_rewrite hfind rfl (fun _ _ => rfl) hp
        rcases List.mem_append.mp hr with hr | hr
        · rcases List.mem_append.mp hr with hr | hr
          · exact hs.cells .shapes _ s hlive ht r
              (List.mem_append_left _ (List.mem_append_left _ hr))
          · have hr' : r ∈ trace (replaceFirst key (fun _ => Descriptor.accessor key (getter.or g)
                (setter.or w) attrs) s.descriptors.asSlice) := by
              rw [← Descriptors.asSlice_ofList (replaceFirst _ _ _)]
              exact hr
            rcases mem_trace_replaceFirst hr' with hold | ⟨x, -, hnew⟩
            · exact holdrefs r hold
            · exact hmerged.accessor attrs r hnew
        · exact hs.cells .shapes _ s hlive ht r (List.mem_append_right _ hr)

end Calls

end V12.Heap
