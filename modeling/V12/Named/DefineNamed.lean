/-
V12.Named.DefineNamed — when a named key is defined as the algorithm
specifies.

Each call on the shape space leaves one record for the key, and the
successor conditions say whether it is the one asked for (§1, §2). Then each
place a named key can live has one lemma (§3).
-/
import V12.Named.DefineOwn

namespace V12.Named

open V12.Heap V12.Interp

variable {sameValue : JsValue → JsValue → Bool}

/-! ## §1 The records that shape calls leave -/

namespace Store

variable {s : Store} {key : PropKey} {attrs : Attrs}

theorem data_of_layout {t : ShapeTree} {h n : Nat} (hl : t.layout h key = some (some n)) :
    ∃ a, t.lookup h key = some (.data key n a) := by
  obtain ⟨d, hd, hslot⟩ := Option.map_eq_some_iff.mp hl
  cases d with
  | data k slot a =>
    obtain rfl : k = key := ShapeTree.key_of_lookup hd
    obtain rfl : slot = n := by simpa [Descriptor.slot] using hslot
    exact ⟨a, hd⟩
  | accessor k g t a => simp [Descriptor.slot] at hslot

theorem accessor_of_layout {t : ShapeTree} {h : Nat} (hl : t.layout h key = some none) :
    ∃ g u a, t.lookup h key = some (.accessor key g u a) := by
  obtain ⟨d, hd, hslot⟩ := Option.map_eq_some_iff.mp hl
  cases d with
  | data k slot a => simp [Descriptor.slot] at hslot
  | accessor k g u a =>
    obtain rfl : k = key := ShapeTree.key_of_lookup hd
    exact ⟨g, u, a, hd⟩

theorem dataSuccessor_of_edge {child n : Nat} {a want : Attrs}
    (he : s.tree.edge? s.object.shape key attrs = some child)
    (hl : s.tree.lookup child key = some (.data key n a)) :
    s.DataSuccessor key attrs want ↔ SameFlags a want := by
  unfold DataSuccessor
  rw [he]
  constructor
  · intro h
    obtain ⟨slot, b, hb, hflags⟩ := h
    rw [hl] at hb
    cases hb
    exact hflags
  · intro hflags
    exact ⟨n, a, hl, hflags⟩

theorem dataSuccessor_of_no_edge {want : Attrs}
    (he : s.tree.edge? s.object.shape key attrs = none) :
    s.DataSuccessor key attrs want ↔ SameFlags attrs want := by
  unfold DataSuccessor
  rw [he]

/-- The shape that an attribute change leads to has the key at its slot. -/
theorem updateDataAttrs_record (hp : s.Placed) {k : PropKey} {slot : Nat} {a : Attrs}
    (hrecord : s.record key = some (.data k slot a)) (attrs : Attrs) :
    ∃ r b, s.tree.updateDataAttrs s.object.shape key attrs = some r ∧
      r.1.lookup r.2 key = some (.data key slot b) ∧
        ∀ want, SameFlags b want ↔ s.DataSuccessor key attrs want := by
  obtain ⟨r, hr⟩ := Option.ne_none_iff_exists'.mp (updateDataAttrs_valid hp.valid key attrs)
  have hx := ShapeTree.extends_updateDataAttrs hp.edges hr
  have hold : r.1.layout s.object.shape key = some (some slot) :=
    (hx.keeps.layout hp.valid key).trans (layout_of_data hrecord)
  obtain ⟨b, hb⟩ := data_of_layout (hx.adds.kept slot hold)
  refine ⟨r, b, hr, hb, fun want => ?_⟩
  obtain ⟨q, hq, ⟨child, he, rfl⟩ | ⟨he, d, hd, rfl⟩ | ⟨-, hnone, -⟩⟩ :=
    ShapeTree.updateDataAttrs_cases hr
  · rw [← ShapeTree.edge?_eq hq] at he
    exact (dataSuccessor_of_edge he hb).symm
  · rw [← ShapeTree.edge?_eq hq] at he
    have hd' : d = .data k slot a := Option.some.inj (hd.symm.trans hrecord)
    rw [ShapeTree.lookup_parent hq] at hd
    have hf : ∀ d : Descriptor, d.key = key →
        (Descriptor.data key (d.slot.getD q.numOwn) attrs).key = key := fun _ _ => rfl
    have hnew : (s.tree.newChild s.object.shape key attrs
        (.ofList (replaceFirst key (fun d => .data key (d.slot.getD q.numOwn) attrs)
          q.descriptors.asSlice)) q.numOwn).1.lookup s.tree.shapes.length key = _ :=
      ShapeTree.lookup_newChild_self hp.valid key
    rw [Descriptors.asSlice_ofList, findIn_replaceFirst_self hf hd, hd'] at hnew
    obtain rfl : b = attrs := by
      have hsame := hb.symm.trans hnew
      simpa [Descriptor.slot] using hsame
    exact (dataSuccessor_of_no_edge he).symm
  · rw [show s.tree.lookup s.object.shape key = some (.data k slot a) from hrecord] at hnone
    cases hnone

/-- The shape that an addition makes has one slot more, and the key in it if the edge is right. -/
theorem addProperty_record (hp : s.Placed) (hrecord : s.record key = none) (attrs : Attrs) :
    ∃ r, s.tree.addProperty s.object.shape key attrs = some r ∧
      r.1.numOwn r.2 = s.numOwn + 1 ∧
      ((∃ b, r.1.lookup r.2 key = some (.data key s.numOwn b) ∧
          ∀ want, SameFlags b want ↔ s.DataSuccessor key attrs want) ∨
        (∃ g t b, r.1.lookup r.2 key = some (.accessor key g t b)) ∧
          ∀ want, ¬ s.DataSuccessor key attrs want) := by
  obtain ⟨r, hr⟩ := Option.ne_none_iff_exists'.mp (addProperty_valid hp.valid key attrs)
  have hx := ShapeTree.extends_addProperty hp.edges hr
  have hold : r.1.layout s.object.shape key = none :=
    (hx.keeps.layout hp.valid key).trans (layout_eq_none.mpr hrecord)
  have hcount : r.1.numOwn s.object.shape = s.numOwn := hx.keeps.numOwn hp.valid
  refine ⟨r, hr, by rw [hx.adds.fresh hold, hcount], ?_⟩
  rcases hx.adds.self with hself | ⟨-, hself⟩ | ⟨hne, -⟩
  · refine .inr ⟨accessor_of_layout hself, ?_⟩
    intro want hsucc
    obtain ⟨g, t, b, hb⟩ := accessor_of_layout hself
    obtain ⟨q, hq, ⟨child, he, rfl⟩ | ⟨-, rfl⟩⟩ := ShapeTree.addProperty_cases hr
    · rw [← ShapeTree.edge?_eq hq] at he
      unfold DataSuccessor at hsucc
      rw [he] at hsucc
      obtain ⟨slot, a, ha, -⟩ := hsucc
      rw [ha] at hb
      cases hb
    · have hpush := ShapeTree.layout_newChild_push hq attrs (.data key q.numOwn attrs)
        (q.numOwn + 1)
      simp only [Descriptor.key] at hpush
      rw [show s.tree.layout s.object.shape key = none from layout_eq_none.mpr hrecord] at hpush
      exact absurd (hpush.symm.trans hself) (by simp [Descriptor.slot])
  · rw [hcount] at hself
    obtain ⟨b, hb⟩ := data_of_layout hself
    refine .inl ⟨b, hb, fun want => ?_⟩
    obtain ⟨q, hq, ⟨child, he, rfl⟩ | ⟨he, rfl⟩⟩ := ShapeTree.addProperty_cases hr
    · rw [← ShapeTree.edge?_eq hq] at he
      exact (dataSuccessor_of_edge he hb).symm
    · rw [← ShapeTree.edge?_eq hq] at he
      have hfind := ShapeTree.find_push (d := .data key q.numOwn attrs) hq
      simp only [Descriptor.key] at hfind
      rw [show s.tree.lookup s.object.shape key = none from hrecord, Option.none_or] at hfind
      have hnew : (s.tree.newChild s.object.shape key attrs
          (q.descriptors.push (.data key q.numOwn attrs)) (q.numOwn + 1)).1.lookup
            s.tree.shapes.length key = _ := ShapeTree.lookup_newChild_self hp.valid key
      rw [hfind] at hnew
      obtain rfl : b = attrs := by
        have hsame := hb.symm.trans hnew
        simp only [Option.some.injEq, Descriptor.data.injEq] at hsame
        exact hsame.2.2
      exact (dataSuccessor_of_no_edge he).symm
  · exact absurd hold hne

theorem AccessorSuccessor.iff_absent {getter setter : Option Nat} {e c : Bool}
    (hplain : ∀ k g t a, s.tree.lookup
      ((s.tree.edge? s.object.shape key attrs).getD s.object.shape) key ≠ some (.accessor k g t a))
    (hr : s.record key = none) :
    s.AccessorSuccessor key getter setter attrs e c ↔
      attrs.enumerable = e ∧ attrs.configurable = c := by
  unfold AccessorSuccessor
  rw [hr]
  cases hd : s.tree.lookup ((s.tree.edge? s.object.shape key attrs).getD s.object.shape) key with
  | none => exact Iff.rfl
  | some d =>
    cases d with
    | data k slot a => exact Iff.rfl
    | accessor k g t a => exact absurd hd (hplain k g t a)

theorem AccessorSuccessor.iff_own {getter setter : Option Nat} {e c : Bool} {k : PropKey}
    {g t : Option Nat} {a : Attrs}
    (hplain : ∀ k g t a, s.tree.lookup
      ((s.tree.edge? s.object.shape key attrs).getD s.object.shape) key ≠ some (.accessor k g t a))
    (hr : s.record key = some (.accessor k g t a)) :
    s.AccessorSuccessor key getter setter attrs e c ↔
      getter = g ∧ setter = t ∧ a.enumerable = e ∧ a.configurable = c := by
  unfold AccessorSuccessor
  rw [hr]
  cases hd : s.tree.lookup ((s.tree.edge? s.object.shape key attrs).getD s.object.shape) key with
  | none => exact Iff.rfl
  | some d =>
    cases d with
    | data k slot a => exact Iff.rfl
    | accessor k g t a => exact absurd hd (hplain k g t a)

/-- Without an accessor to merge into, the halves given are those of the shape. -/
theorem defineAccessor_pushed (hp : s.Placed)
    (hrecord : ∀ k slot a, s.record key ≠ some (.data k slot a)) {getter setter : Option Nat}
    {e c : Bool}
    (hl : ShapeTree.isAccessor (s.tree.lookup
      ((s.tree.edge? s.object.shape key attrs).getD s.object.shape) key) = false) :
    ∃ r g t a, s.tree.defineAccessor s.object.shape key getter setter attrs = some r ∧
      r.1.lookup r.2 key = some (.accessor key g t a) ∧
        ((g = getter ∧ t = setter ∧ a.enumerable = e ∧ a.configurable = c) ↔
          s.AccessorSuccessor key getter setter attrs e c) := by
  obtain ⟨q, hq⟩ : ∃ q, s.tree.get? s.object.shape = some q :=
    ⟨_, List.getElem?_eq_getElem hp.valid⟩
  have hmerge := ShapeTree.mergeTarget_eq hq key attrs
  simp only [hl, Bool.false_eq_true, if_false] at hmerge
  have hcall : s.tree.defineAccessor s.object.shape key getter setter attrs =
      some (s.tree.newChild s.object.shape key attrs
        (q.descriptors.push (.accessor key getter setter attrs)) (q.numOwn + 1)) := by
    simp only [ShapeTree.defineAccessor, hq, hmerge]
  have hfind := ShapeTree.find_push (d := .accessor key getter setter attrs) hq
  simp only [Descriptor.key] at hfind
  have hnew : (s.tree.newChild s.object.shape key attrs
      (q.descriptors.push (.accessor key getter setter attrs)) (q.numOwn + 1)).1.lookup
        s.tree.shapes.length key = _ := ShapeTree.lookup_newChild_self hp.valid key
  rw [hfind] at hnew
  have hplain : ∀ k g t a, s.tree.lookup
      ((s.tree.edge? s.object.shape key attrs).getD s.object.shape) key ≠
        some (.accessor k g t a) := by
    intro k g t a hd
    simp [hd, ShapeTree.isAccessor] at hl
  cases hr : s.record key with
  | none =>
    rw [show s.tree.lookup s.object.shape key = none from hr, Option.none_or] at hnew
    refine ⟨_, getter, setter, attrs, hcall, hnew, ?_⟩
    rw [AccessorSuccessor.iff_absent hplain hr]
    simp only [true_and]
  | some d =>
    cases d with
    | data k slot a => exact absurd hr (hrecord k slot a)
    | accessor k g t a =>
      obtain rfl : k = key := ShapeTree.key_of_lookup hr
      rw [show s.tree.lookup s.object.shape k = some (.accessor k g t a) from hr,
        Option.some_or] at hnew
      refine ⟨_, g, t, a, hcall, hnew, ?_⟩
      rw [AccessorSuccessor.iff_own hplain hr]
      simp only [eq_comm (a := g), eq_comm (a := t)]

/-- With one, each half that is not given stays the one it has. -/
theorem defineAccessor_merged (hp : s.Placed) {getter setter : Option Nat} {e c : Bool} {k : PropKey}
    {g t : Option Nat} {a : Attrs}
    (hl : s.tree.lookup ((s.tree.edge? s.object.shape key attrs).getD s.object.shape) key =
      some (.accessor k g t a)) :
    ∃ r g' t' b, s.tree.defineAccessor s.object.shape key getter setter attrs = some r ∧
      r.1.lookup r.2 key = some (.accessor key g' t' b) ∧
        ((g' = getter ∧ t' = setter ∧ b.enumerable = e ∧ b.configurable = c) ↔
          s.AccessorSuccessor key getter setter attrs e c) := by
  obtain ⟨q, hq⟩ : ∃ q, s.tree.get? s.object.shape = some q :=
    ⟨_, List.getElem?_eq_getElem hp.valid⟩
  have hmerge := ShapeTree.mergeTarget_eq hq key attrs
  simp only [hl, ShapeTree.isAccessor, if_true, ShapeTree.halves] at hmerge
  have hsucc : s.AccessorSuccessor key getter setter attrs e c ↔
      Merges getter setter attrs e c g t a := by
    unfold AccessorSuccessor
    rw [hl]
  obtain rfl : k = key := ShapeTree.key_of_lookup hl
  rw [hsucc]
  by_cases hsame : getter.or g = g ∧ setter.or t = t
  · have hcall : s.tree.defineAccessor s.object.shape k getter setter attrs =
        some (s.tree, (s.tree.edge? s.object.shape k attrs).getD s.object.shape) := by
      simp only [ShapeTree.defineAccessor, hq, hmerge]
      exact if_pos hsame
    refine ⟨_, g, t, a, hcall, hl, ?_⟩
    unfold Merges
    rw [hsame.1, hsame.2]
    constructor
    · rintro ⟨rfl, rfl, hflags⟩
      exact ⟨rfl, rfl, by simpa using hflags⟩
    · rintro ⟨rfl, rfl, hflags⟩
      exact ⟨rfl, rfl, by simpa using hflags⟩
  · have hcall : s.tree.defineAccessor s.object.shape k getter setter attrs =
        some (s.tree.rewriteAccessor ((s.tree.edge? s.object.shape k attrs).getD s.object.shape) k
          (getter.or g) (setter.or t) attrs,
          (s.tree.edge? s.object.shape k attrs).getD s.object.shape) := by
      simp only [ShapeTree.defineAccessor, hq, hmerge]
      exact if_neg hsame
    refine ⟨_, getter.or g, setter.or t, attrs, hcall, ShapeTree.lookup_rewriteAccessor_self hl, ?_⟩
    unfold Merges
    refine and_congr_right fun hg => and_congr_right fun ht => ?_
    have hne : ¬ (getter = g ∧ setter = t) := by
      rintro ⟨rfl, rfl⟩
      exact hsame ⟨hg, ht⟩
    rw [if_neg hne]

theorem defineAccessor_record (hp : s.Placed)
    (hrecord : ∀ k slot a, s.record key ≠ some (.data k slot a)) (getter setter : Option Nat)
    (attrs : Attrs) (e c : Bool) :
    ∃ r g t a, s.tree.defineAccessor s.object.shape key getter setter attrs = some r ∧
      r.1.lookup r.2 key = some (.accessor key g t a) ∧
        ((g = getter ∧ t = setter ∧ a.enumerable = e ∧ a.configurable = c) ↔
          s.AccessorSuccessor key getter setter attrs e c) := by
  cases hl : s.tree.lookup ((s.tree.edge? s.object.shape key attrs).getD s.object.shape) key with
  | none => exact defineAccessor_pushed hp hrecord (by rw [hl]; rfl)
  | some d =>
    cases d with
    | data k slot a => exact defineAccessor_pushed hp hrecord (by rw [hl]; rfl)
    | accessor k g t a => exact defineAccessor_merged hp hl

/-! ## §2 What is left at the key -/

/-- `validate_redefine` as one formula. -/
theorem validateRedefine_eq (a : Attrs) (isAccessor : Bool) (v : JsValue) (g t : Option Nat)
    (d : PartialDescriptor) :
    validateRedefine sameValue a isAccessor v g t d =
      (a.configurable || (d.configurable != some true && d.enumerable.all (· = a.enumerable) &&
        match isAccessor, d.isAccessor with
        | true, false => !d.isData
        | false, true => false
        | false, false =>
          a.writable || (d.writable != some true && d.value.all fun v' => sameValue v' v)
        | true, true => d.get.all (fun g' => g' = g) && d.set.all fun t' => t' = t)) := by
  have hany : (d.enumerable.any fun e => decide (e ≠ a.enumerable)) =
      !(d.enumerable.all (· = a.enumerable)) := by
    cases d.enumerable <;> simp
  unfold validateRedefine
  rw [hany]
  cases a.configurable with
  | true => rfl
  | false =>
    cases hc : d.configurable == some true with
    | true => simp only [Bool.false_eq_true, if_false, if_true, bne, hc, Bool.not_true,
        Bool.false_and, Bool.or_false]
    | false =>
      cases d.enumerable.all (· = a.enumerable) with
      | true => cases isAccessor <;> cases d.isAccessor <;> simp [bne, hc]
      | false => simp only [Bool.false_eq_true, if_false, if_true, bne, hc, Bool.not_false,
          Bool.true_and, Bool.false_and, Bool.or_false]

/-- It is the check of ECMAScript on a data property, and on an accessor. -/
theorem validateRedefine_data (a : Attrs) (v : JsValue) (d : PartialDescriptor) :
    validateRedefine sameValue a false v none none d = (Property.ofData v a).permits sameValue d := by
  rw [validateRedefine_eq]
  simp only [Property.permits, Property.ofData, Property.configurable, Property.enumerable]
  cases d.isAccessor with
  | true => rfl
  | false =>
    simp only [Bool.not_false, Bool.true_and]
    rfl

theorem validateRedefine_accessor {d : PartialDescriptor} (hd : d.Proper) (a : Attrs)
    (v : JsValue) (g t : Option Nat) :
    validateRedefine sameValue a true v g t d = (Property.ofAccessor g t a).permits sameValue d := by
  rw [validateRedefine_eq]
  simp only [Property.permits, Property.ofAccessor, Property.configurable, Property.enumerable]
  cases hacc : d.isAccessor with
  | true =>
    have hdata : d.isData = false := hd.oneKind.resolve_right (by simp [hacc])
    simp only [hdata, Bool.not_false, Bool.true_and]
    rfl
  | false =>
    have hhalves : d.get = none ∧ d.set = none := by
      simpa [PartialDescriptor.isAccessor] using hacc
    simp only [hhalves.1, hhalves.2, Option.all_none, Bool.and_true]
    rfl

section Fields

variable {d : PartialDescriptor} (a b : Attrs)

theorem accessor_eq_created (hacc : d.isAccessor = true) :
    (Property.ofAccessor (d.get.getD none) (d.set.getD none) a).shown = (Property.created d).shown ↔
      SameAccess a d.freshAttrs := by
  simp [Property.ofAccessor, Property.created, Property.shown, SameAccess, hacc]

theorem data_eq_created (hacc : d.isAccessor = false) (v : JsValue) :
    (Property.ofData v a).shown = (Property.created d).shown ↔
      shown v = shown (d.value.getD .undefined) ∧ SameFlags a d.freshAttrs := by
  simp [Property.ofData, Property.created, Property.shown, SameFlags, hacc]

theorem accessor_eq_redefined (hacc : d.isAccessor = true) (v : JsValue) :
    (Property.ofAccessor (d.get.getD none) (d.set.getD none) a).shown =
      ((Property.ofData v b).redefined d).shown ↔ SameAccess a (d.mergedAttrs b) := by
  simp [Property.ofAccessor, Property.ofData, Property.redefined, Property.shown, SameAccess, hacc]

theorem data_eq_redefined (hacc : d.isAccessor = false) (u v : JsValue) :
    (Property.ofData u a).shown = ((Property.ofData v b).redefined d).shown ↔
      shown u = shown (d.value.getD v) ∧ SameFlags a (d.mergedAttrs b) := by
  simp [Property.ofData, Property.redefined, Property.shown, SameFlags, hacc]

theorem cell_eq_created (hacc : d.isAccessor = false) (x : Option JsValue) :
    (x.map fun v => Property.ofData v a).map Property.shown = some (Property.created d).shown ↔
      x.map shown = some (shown (d.value.getD .undefined)) ∧ SameFlags a d.freshAttrs := by
  cases x with
  | none => simp
  | some v => simpa using data_eq_created a hacc v

theorem cell_eq_redefined (hacc : d.isAccessor = false) (x : Option JsValue) (v : JsValue) :
    (x.map fun u => Property.ofData u a).map Property.shown =
        some ((Property.ofData v b).redefined d).shown ↔
      x.map shown = some (shown (d.value.getD v)) ∧ SameFlags a (d.mergedAttrs b) := by
  cases x with
  | none => simp
  | some u => simpa using data_eq_redefined a b hacc u v

end Fields

/-- A value written to one cell is found in another exactly if they are one. -/
theorem shown_liveCell_growCell {v : JsValue} (hv : v ≠ .hole) (i j : Nat) :
    ((s.growCell j v .hole).liveCell i).map shown = some (shown v) ↔ s.Lands i j v := by
  rw [liveCell_growCell]
  unfold Lands
  by_cases hij : i = j
  · rw [if_pos hij, filter_live hv]
    exact iff_of_true rfl (.inl hij)
  · rw [if_neg hij]
    exact ⟨.inr, fun h => h.resolve_left hij⟩

/-! ## §3 Named keys -/

section Named

variable {d : PartialDescriptor}
variable {s' : Store} {a : Attrs} {e : DictEntry} {k : PropKey} {slot : Nat}

/-- `DefinesRight` of a named key. -/
def NamedRight (sameValue : JsValue → JsValue → Bool) (s : Store) (key : PropKey)
    (d : PartialDescriptor) : Prop :=
  match validateAndApply sameValue s.extensible (s.ownProperty key) d with
  | none => applyPropertyDescriptor sameValue s key d = (s, .refused)
  | some p =>
    (applyPropertyDescriptor sameValue s key d).2 = .done ∧
      ((applyPropertyDescriptor sameValue s key d).1.ownProperty key).map Property.shown =
        some p.shown

/-- A redefinition is right if it is accepted as it should be and leaves what it should. -/
theorem namedRight_present {p : Property} {ok : Bool} (hown : s.ownProperty key = some p)
    (happly : applyPropertyDescriptor sameValue s key d =
      if ok then (s', .done) else (s, .refused)) :
    NamedRight sameValue s key d ↔ ok = p.permits sameValue d ∧ (p.permits sameValue d = true →
      (s'.ownProperty key).map Property.shown = some (p.redefined d).shown) := by
  unfold NamedRight validateAndApply
  rw [hown, happly]
  cases hp : p.permits sameValue d <;> cases ok <;> simp [hp]

/-- A creation is right if it follows the object's extensibility and leaves what it should. -/
theorem namedRight_absent {ok : Bool} (hown : s.ownProperty key = none)
    (happly : applyPropertyDescriptor sameValue s key d =
      if ok then (s', .done) else (s, .refused)) :
    NamedRight sameValue s key d ↔
      if s.extensible then
        ok = true ∧ (s'.ownProperty key).map Property.shown = some (Property.created d).shown
      else ok = false := by
  unfold NamedRight validateAndApply
  rw [hown, happly]
  cases s.extensible <;> cases ok <;> simp

/-- A deleted property that still has a descriptor is taken for one that is there. -/
theorem namedRight_holed {kept : JsValue} {fits : Prop} (hown : s.ownProperty key = none)
    (happly : applyPropertyDescriptor sameValue s key d =
      if validateRedefine sameValue a false kept none none d then (s', .done) else (s, .refused))
    (hfits : (s'.ownProperty key).map Property.shown = some (Property.created d).shown ↔ fits) :
    NamedRight sameValue s key d ↔ HoleFits sameValue s.extensible a kept d fits := by
  rw [namedRight_absent hown happly, hfits]
  rfl

theorem entry_applied (he : s.entry key = some e) (s' : Store) (hs' : s'.entry key = s.entry key) :
    (s'.updateEntry key (appliedEntry d)).entry key = some (appliedEntry d e) := by
  rw [entry_updateEntry, if_pos rfl, hs', he]
  rfl

/-- An accessor of the dictionary. -/
theorem namedRight_entryAccessor (hd : d.Proper) (he : s.entry key = some e)
    (hacc : e.isAccessor = true) :
    NamedRight sameValue s key d ↔ s.EntryFits sameValue e d := by
  have hown : s.ownProperty key = some (.ofAccessor e.getter e.setter e.attrs) := by
    rw [ownProperty_entry he]
    simp only [entryProperty, hacc, if_true]
  have happly : applyPropertyDescriptor sameValue s key d =
      if (Property.ofAccessor e.getter e.setter e.attrs).permits sameValue d then
        (s.updateEntry key (appliedEntry d), .done) else (s, .refused) := by
    simp only [applyPropertyDescriptor, he, hacc, if_true, Bool.true_or,
      validateRedefine_accessor hd]
    cases (Property.ofAccessor e.getter e.setter e.attrs).permits sameValue d with
    | true => cases d.value <;> rfl
    | false => rfl
  rw [namedRight_present hown happly]
  simp only [true_and, EntryFits, hacc, if_true]
  refine imp_congr_right fun _ => ?_
  rw [ownProperty_entry (entry_applied he s rfl)]
  have hkind : (appliedEntry d e).isAccessor = true := by
    simp only [appliedEntry, hacc, if_true]
    cases d.isAccessor with
    | true => rfl
    | false => exact hacc
  simp only [entryProperty, hkind, if_true, Property.ofAccessor, Property.redefined, Option.map_some]
  cases hdata : d.isData with
  | true => simp [Property.shown]
  | false =>
    refine iff_of_true ?_ rfl
    have hhalves : (appliedEntry d e).getter = d.get.getD e.getter ∧
        (appliedEntry d e).setter = d.set.getD e.setter := by
      simp only [appliedEntry, hacc, if_true]
      cases hd' : d.isAccessor with
      | true => exact ⟨rfl, rfl⟩
      | false =>
        have hnone : d.get = none ∧ d.set = none := by
          simpa [PartialDescriptor.isAccessor] using hd'
        simp only [hnone.1, hnone.2, Option.getD_none, Bool.false_eq_true, if_false, and_self]
    have hattrs : (appliedEntry d e).attrs = d.mergedAttrs e.attrs := rfl
    simp only [Bool.false_eq_true, if_false, Property.shown, hhalves.1, hhalves.2, hattrs,
      enumerable_mergedAttrs, configurable_mergedAttrs]

/-- The store that an applied descriptor leaves behind a data entry. -/
def appliedData (s : Store) (key : PropKey) (d : PartialDescriptor) (slot : Nat) : Store :=
  (match d.value with
    | some v => if d.isAccessor then s else s.growCell slot v .hole
    | none => s).updateEntry key (appliedEntry d)

theorem apply_dataEntry (he : s.entry key = some e) (hdata : e.isAccessor = false) :
    applyPropertyDescriptor sameValue s key d =
      if validateRedefine sameValue e.attrs false ((s.cell e.slot).getD .undefined) none none d then
        (s.appliedData key d e.slot, .done) else (s, .refused) := by
  have hverdict : validateRedefine sameValue e.attrs false ((s.cell e.slot).getD .undefined) e.getter
      e.setter d = validateRedefine sameValue e.attrs false ((s.cell e.slot).getD .undefined) none
      none d := by
    rw [validateRedefine_eq, validateRedefine_eq]
    cases d.isAccessor <;> rfl
  simp only [applyPropertyDescriptor, he, hdata, Bool.false_eq_true, if_false, Bool.false_or,
    hverdict, appliedData]
  cases validateRedefine sameValue e.attrs false ((s.cell e.slot).getD .undefined) none none d with
  | true => cases d.value <;> rfl
  | false => rfl

theorem ownProperty_appliedData (hd : d.Proper) (he : s.entry key = some e)
    (hdata : e.isAccessor = false) :
    (s.appliedData key d e.slot).ownProperty key =
      if d.isAccessor then
        some (.ofAccessor (d.get.getD none) (d.set.getD none) (d.mergedAttrs e.attrs))
      else (d.value.or (s.liveCell e.slot)).map fun v => .ofData v (d.mergedAttrs e.attrs) := by
  have hentry : (s.appliedData key d e.slot).entry key = some (appliedEntry d e) := by
    unfold appliedData
    cases d.value with
    | none => exact entry_applied he s rfl
    | some v =>
      cases d.isAccessor with
      | true => exact entry_applied he s rfl
      | false => exact entry_applied he (s.growCell e.slot v .hole) rfl
  rw [ownProperty_entry hentry]
  cases hacc : d.isAccessor with
  | true => simp only [entryProperty, appliedEntry, hdata, hacc, Bool.false_eq_true, if_false, if_true]
  | false =>
    have hcell : (s.appliedData key d e.slot).liveCell e.slot = d.value.or (s.liveCell e.slot) := by
      simp only [appliedData, hacc, Bool.false_eq_true, if_false, liveCell_updateEntry]
      cases hv : d.value with
      | none => rfl
      | some v =>
        rw [liveCell_growCell, if_pos rfl, filter_live (hd.value v hv).2, Option.some_or]
    simp only [entryProperty, appliedEntry, hdata, hacc, Bool.false_eq_true, if_false, hcell]

/-- A data property of the dictionary. -/
theorem namedRight_entryData (hd : d.Proper) (he : s.entry key = some e)
    (hdata : e.isAccessor = false) :
    NamedRight sameValue s key d ↔ s.EntryFits sameValue e d := by
  have hown : s.ownProperty key = (s.liveCell e.slot).map fun v => .ofData v e.attrs := by
    rw [ownProperty_entry he]
    simp only [entryProperty, hdata, Bool.false_eq_true, if_false]
  have happly : applyPropertyDescriptor sameValue s key d = _ := apply_dataEntry he hdata
  have hafter := ownProperty_appliedData hd he hdata
  have hkept {v : JsValue} (h : s.liveCell e.slot = some v) : (s.cell e.slot).getD .undefined = v := by
    rw [(Option.filter_eq_some_iff.mp h).1, Option.getD_some]
  simp only [EntryFits, hdata, Bool.false_eq_true, if_false]
  cases hlive : s.liveCell e.slot with
  | none =>
    rw [hlive, Option.or_none] at hafter
    rw [hlive] at hown
    refine namedRight_holed hown happly ?_
    rw [hafter]
    cases hacc : d.isAccessor with
    | true =>
      simp only [if_true, Option.map_some, Option.some.injEq]
      exact accessor_eq_created _ hacc
    | false =>
      simp only [Bool.false_eq_true, if_false]
      cases hv : d.value with
      | none => simp
      | some u =>
        simp only [Option.map_some, Option.some.injEq, Option.isSome_some, true_and,
          data_eq_created _ hacc, hv, Option.getD_some]
  | some v =>
    rw [hlive] at hown hafter
    rw [validateRedefine_data, hkept hlive] at happly
    rw [namedRight_present hown happly]
    refine iff_of_true ⟨rfl, fun _ => ?_⟩ trivial
    rw [hafter]
    cases hacc : d.isAccessor with
    | true =>
      simp only [if_true, Option.map_some, Option.some.injEq]
      exact (accessor_eq_redefined _ _ hacc v).mpr ⟨rfl, rfl⟩
    | false =>
      simp only [Bool.false_eq_true, if_false, Option.or_some, Option.map_some, Option.some.injEq]
      exact (data_eq_redefined _ _ hacc _ v).mpr ⟨rfl, rfl, rfl, rfl⟩

/-- An accessor of the shape. -/
theorem namedRight_accessor (hp : s.Placed) (hd : d.Proper) (he : s.entry key = none)
    {g t : Option Nat} (hr : s.record key = some (.accessor k g t a)) :
    NamedRight sameValue s key d ↔ s.AccessorFits sameValue key g t a d := by
  have hown : s.ownProperty key = some (.ofAccessor g t a) := by
    rw [ownProperty_record he hr]
    rfl
  have hnodata : ∀ k slot a, s.record key ≠ some (.data k slot a) := by
    intro k slot a h
    rw [hr] at h
    cases h
  unfold AccessorFits
  cases hacc : d.isAccessor with
  | true =>
    have hdata : d.isData = false := hd.oneKind.resolve_right (by simp [hacc])
    obtain ⟨r, g', t', b, hcall, hl, hsucc⟩ := defineAccessor_record hp hnodata (d.get.getD g)
      (d.set.getD t) a (d.enumerable.getD a.enumerable) (d.configurable.getD a.configurable)
    have happly : applyPropertyDescriptor sameValue s key d =
        if (Property.ofAccessor g t a).permits sameValue d then (s.bindShape r, .done)
        else (s, .refused) := by
      simp only [applyPropertyDescriptor, he, hr, validateRedefine_accessor hd, hacc, if_true, hcall]
      cases (Property.ofAccessor g t a).permits sameValue d <;> rfl
    have hafter : (s.bindShape r).ownProperty key = some (.ofAccessor g' t' b) := by
      rw [ownProperty_record (by rw [entry_bindShape, he]) (by rw [record_bindShape, hl])]
      rfl
    rw [namedRight_present hown happly, hafter]
    simp only [true_and, PartialDescriptor.isGeneric, hacc, hdata, Bool.not_true, Bool.false_and,
      Bool.false_eq_true, false_imp_iff, true_imp_iff, ← hsucc]
    simp [Property.ofAccessor, Property.redefined, Property.shown, hdata]
  | false =>
    have hvalue : d.value.getD .undefined ≠ .hole := by
      cases hv : d.value with
      | none => simp
      | some v => exact (hd.value v hv).2
    have happly : applyPropertyDescriptor sameValue s key d =
        if (Property.ofAccessor g t a).permits sameValue d then
          (s.withObject
            (Machine.convertKeyToData s.object s.numOwn key (d.mergedAttrs a) d.value), .done)
        else (s, .refused) := by
      simp only [applyPropertyDescriptor, he, hr, validateRedefine_accessor hd, hacc,
        Bool.false_eq_true, if_false]
      cases (Property.ofAccessor g t a).permits sameValue d <;> rfl
    rw [namedRight_present hown happly, ownProperty_convertKeyToData s key _ _ hvalue]
    simp only [true_and, PartialDescriptor.isGeneric, hacc, Bool.not_false, Bool.true_and,
      Bool.false_eq_true, false_imp_iff, and_true]
    refine imp_congr_right fun _ => ?_
    cases hdata : d.isData <;>
      simp [Property.ofAccessor, Property.ofData, Property.redefined, Property.shown, hdata, eq_comm]

def wroteValue (s : Store) (d : PartialDescriptor) (slot : Nat) : Store :=
  match d.value with
  | some v => s.growCell slot v .hole
  | none => s

/-- What the call does to a data property of the shape. -/
theorem apply_dataRecord (sameValue : JsValue → JsValue → Bool) (hp : s.Placed)
    (he : s.entry key = none) (hr : s.record key = some (.data k slot a))
    (hacc : d.isAccessor = false) :
    ∃ s' b, applyPropertyDescriptor sameValue s key d =
        (if validateRedefine sameValue a false ((s.cell slot).getD .undefined) none none d then
          (s', .done) else (s, .refused)) ∧
      s'.ownProperty key =
        ((s.wroteValue d slot).liveCell (s.slotIndex slot)).map (fun v => .ofData v b) ∧
      ∀ want, SameFlags b want ↔ s.Remade key a (d.mergedAttrs a) want := by
  obtain ⟨hentry, hrecord, hindex⟩ : (s.wroteValue d slot).entry key = none ∧
      (s.wroteValue d slot).record key = some (.data k slot a) ∧
        (s.wroteValue d slot).slotIndex slot = s.slotIndex slot := by
    unfold wroteValue
    cases d.value <;> exact ⟨he, hr, rfl⟩
  unfold Remade
  by_cases hsame : d.mergedAttrs a = a
  · refine ⟨s.wroteValue d slot, a, ?_, ?_, ?_⟩
    · simp only [applyPropertyDescriptor, he, hr, hacc, hsame, Bool.false_eq_true, if_false, if_true,
        wroteValue]
      cases validateRedefine sameValue a false ((s.cell slot).getD .undefined) none none d <;>
        cases d.value <;> rfl
    · rw [ownProperty_record hentry hrecord]
      simp only [recordProperty, hindex]
    · intro want
      rw [if_pos hsame]
  · obtain ⟨r, b, hcall, hl, hflags⟩ := updateDataAttrs_record hp hr (d.mergedAttrs a)
    refine ⟨(s.wroteValue d slot).bindShape r, b, ?_, ?_, ?_⟩
    · simp only [applyPropertyDescriptor, he, hr, hacc, Bool.false_eq_true, if_false, if_neg hsame,
        wroteValue]
      cases validateRedefine sameValue a false ((s.cell slot).getD .undefined) none none d with
      | true =>
        cases d.value with
        | none => simp [hcall]
        | some v => simp [growCell, withObject, hcall]
      | false => rfl
    · rw [ownProperty_record (by rw [entry_bindShape, hentry]) (by rw [record_bindShape, hl])]
      simp only [recordProperty, slotIndex_bindShape, liveCell_bindShape, hindex]
    · intro want
      rw [if_neg hsame]
      exact hflags want

theorem shown_wroteValue (hd : d.Proper) {i : Nat} {v : JsValue} (hlive : s.liveCell i = some v) :
    ((s.wroteValue d slot).liveCell i).map shown = some (shown (d.value.getD v)) ↔
      ∀ u, d.value = some u → s.Lands i slot u := by
  unfold wroteValue
  cases hv : d.value with
  | none => simp [hlive]
  | some u =>
    simp only [Option.getD_some, Option.some.injEq, forall_eq']
    exact shown_liveCell_growCell (hd.value u hv).2 i slot

theorem shown_wroteValue_holed (hd : d.Proper) {i : Nat} (hlive : s.liveCell i = none) :
    ((s.wroteValue d slot).liveCell i).map shown = some (shown (d.value.getD .undefined)) ↔
      d.value.isSome = true ∧ i = slot := by
  unfold wroteValue
  cases hv : d.value with
  | none => simp [hlive]
  | some u =>
    simp only [Option.getD_some, Option.isSome_some, true_and]
    rw [shown_liveCell_growCell (hd.value u hv).2 i slot]
    unfold Lands
    simp [hlive]

/-- A data property of the shape. -/
theorem namedRight_data (hp : s.Placed) (hd : d.Proper) (he : s.entry key = none)
    (hr : s.record key = some (.data k slot a)) :
    NamedRight sameValue s key d ↔ s.DataFits sameValue key slot a d := by
  have hown : s.ownProperty key = (s.liveCell (s.slotIndex slot)).map fun v => .ofData v a := by
    rw [ownProperty_record he hr]
    rfl
  unfold DataFits
  cases hacc : d.isAccessor with
  | true =>
    have happly : applyPropertyDescriptor sameValue s key d =
        if validateRedefine sameValue a false ((s.cell slot).getD .undefined) none none d then
          (s.withObject (Machine.convertKeyToAccessor s.object s.numOwn key a (d.get.getD none)
            (d.set.getD none)), .done)
        else (s, .refused) := by
      simp only [applyPropertyDescriptor, he, hr, hacc, if_true]
      cases validateRedefine sameValue a false ((s.cell slot).getD .undefined) none none d <;> rfl
    have hafter := ownProperty_convertKeyToAccessor s key a (d.get.getD none) (d.set.getD none)
    cases hlive : s.liveCell (s.slotIndex slot) with
    | none =>
      rw [hlive] at hown
      refine namedRight_holed hown happly ?_
      rw [hafter, Option.map_some, Option.some.injEq, accessor_eq_created _ hacc]
      simp only [if_true]
    | some v =>
      rw [hlive] at hown
      rw [namedRight_present hown happly, hafter, Option.map_some, Option.some.injEq]
      simp only [if_true]
      rw [accessor_eq_redefined _ _ hacc]
  | false =>
    obtain ⟨s', b, happly, hafter, hflags⟩ := apply_dataRecord sameValue hp he hr hacc
    cases hlive : s.liveCell (s.slotIndex slot) with
    | none =>
      rw [hlive] at hown
      refine namedRight_holed hown happly ?_
      rw [hafter, cell_eq_created _ hacc, hflags, shown_wroteValue_holed hd hlive]
      simp only [Bool.false_eq_true, if_false, and_assoc]
    | some v =>
      rw [hlive] at hown
      rw [namedRight_present hown happly, hafter, cell_eq_redefined _ _ hacc, hflags,
        shown_wroteValue hd hlive]
      simp only [Bool.false_eq_true, if_false]

theorem created_of_fresh (hacc : d.isAccessor = false) :
    (some (Property.ofData (d.value.getD .undefined) d.freshAttrs)).map Property.shown =
      some (Property.created d).shown := by
  rw [Option.map_some, Option.some.injEq]
  exact (data_eq_created _ hacc _).mpr ⟨rfl, rfl, rfl, rfl⟩

/-- A new accessor, in the dictionary or on the shape. -/
theorem installNewAccessor_right (hp : s.Placed) (he : s.entry key = none) (hr : s.record key = none)
    (hacc : d.isAccessor = true) :
    ∃ s', s.installNewAccessor key d = (s', .done) ∧
      ((s'.ownProperty key).map Property.shown = some (Property.created d).shown ↔
        (s.object.dictionary = none → s.numOwn < namedDictThreshold →
          s.AccessorSuccessor key (d.get.getD none) (d.set.getD none)
            (attrsOf false (d.enumerable.getD false) (d.configurable.getD false))
            (d.enumerable.getD false) (d.configurable.getD false))) := by
  unfold installNewAccessor
  by_cases hspill : (s.object.dictionary.isSome || decide (s.numOwn ≥ namedDictThreshold)) = true
  · rw [if_pos hspill]
    refine ⟨_, rfl, iff_of_true ?_ ?_⟩
    · rw [ownProperty_convertKeyToAccessor, Option.map_some, Option.some.injEq,
        accessor_eq_created _ hacc]
      simp [SameAccess]
    · intro hdict hsmall
      simp only [hdict, Option.isSome_none, Bool.false_or, decide_eq_true_eq] at hspill
      omega
  · rw [if_neg hspill]
    have hnodata : ∀ k slot a, s.record key ≠ some (.data k slot a) := by
      intro k slot a h
      rw [hr] at h
      cases h
    obtain ⟨r, g, t, a, hcall, hl, hsucc⟩ := defineAccessor_record hp hnodata (d.get.getD none)
      (d.set.getD none) (attrsOf false (d.enumerable.getD false) (d.configurable.getD false))
      (d.enumerable.getD false) (d.configurable.getD false)
    have hroom : s.object.dictionary = none ∧ s.numOwn < namedDictThreshold := by
      simpa using hspill
    simp only [hcall]
    refine ⟨_, rfl, ?_⟩
    have hafter : (((s.bindShape r).reserve (r.1.numOwn r.2 - 1 + 1)).ownProperty key) =
        some (.ofAccessor g t a) := by
      rw [ownProperty_record (by rw [entry_reserve, entry_bindShape, he])
        (by rw [record_reserve, record_bindShape, hl])]
      rfl
    rw [hafter, forall_prop_of_true hroom.1, forall_prop_of_true hroom.2, ← hsucc]
    simp [Property.ofAccessor, Property.created, Property.shown, hacc]

theorem storeShapeExtension_eq (s : Store) (v : JsValue) :
    s.storeShapeExtension v =
      s.growCell (if s.object.kind = .array ∨ s.object.kind = .arguments then s.numOwn - 1
        else s.size) v .hole := by
  unfold storeShapeExtension
  cases s.object.kind <;> first | rfl | exact (growCell_size s v .hole).symm

/-- A new data property, in the dictionary or on the shape. -/
theorem extend_right (hp : s.Placed) (hd : d.Proper) (he : s.entry key = none)
    (hr : s.record key = none) (hacc : d.isAccessor = false) :
    ∃ s', s.extend key (d.value.getD .undefined) d.freshAttrs = (s', .done) ∧
      ((s'.ownProperty key).map Property.shown = some (Property.created d).shown ↔
        (s.object.dictionary = none → s.numOwn < namedDictThreshold →
          s.DataSuccessor key d.freshAttrs d.freshAttrs ∧
            s.Lands (s.slotIndex s.numOwn)
              (if s.object.kind = .array ∨ s.object.kind = .arguments then s.numOwn else s.size)
              (d.value.getD .undefined))) := by
  have hvalue : d.value.getD .undefined ≠ .hole := by
    cases hv : d.value with
    | none => simp
    | some v => exact (hd.value v hv).2
  unfold extend
  by_cases hdict : s.object.dictionary.isSome = true
  · rw [if_pos hdict]
    refine ⟨_, rfl, iff_of_true ?_ ?_⟩
    · rw [ownProperty_insertEntry hdict, filter_live hvalue]
      exact created_of_fresh hacc
    · intro hnone
      simp [hnone] at hdict
  · rw [if_neg hdict]
    by_cases hfull : s.numOwn ≥ namedDictThreshold
    · rw [if_pos hfull]
      refine ⟨_, rfl, iff_of_true ?_ ?_⟩
      · rw [ownProperty_insertEntry (dictionary_spill s), filter_live hvalue]
        exact created_of_fresh hacc
      · intro _ hsmall
        omega
    · rw [if_neg hfull]
      have hnone : s.object.dictionary = none := by simpa using hdict
      obtain ⟨r, hcall, hcount, hrec⟩ := addProperty_record hp hr d.freshAttrs
      simp only [hcall]
      refine ⟨_, rfl, ?_⟩
      rw [forall_prop_of_true hnone, forall_prop_of_true (Nat.lt_of_not_le hfull)]
      have hstore : (s.bindShape r).storeShapeExtension (d.value.getD .undefined) =
          (s.bindShape r).growCell
            (if s.object.kind = .array ∨ s.object.kind = .arguments then s.numOwn else s.size)
            (d.value.getD .undefined) .hole := by
        rw [storeShapeExtension_eq,
          numOwn_bindShape (ShapeTree.extends_addProperty hp.edges hcall).valid, hcount,
          Nat.add_sub_cancel]
        rfl
      rw [hstore]
      rcases hrec with ⟨b, hl, hflags⟩ | ⟨⟨g, t, b, hl⟩, hno⟩
      · rw [ownProperty_record (by rw [entry_growCell, entry_bindShape, he])
          (by rw [record_growCell, record_bindShape, hl])]
        simp only [recordProperty]
        rw [cell_eq_created _ hacc, slotIndex_growCell, slotIndex_bindShape,
          shown_liveCell_growCell hvalue, hflags]
        exact and_comm
      · rw [ownProperty_record (by rw [entry_growCell, entry_bindShape, he])
          (by rw [record_growCell, record_bindShape, hl])]
        refine iff_of_false ?_ fun h => hno _ h.1
        simp [recordProperty, Property.ofAccessor, Property.created, Property.shown, hacc]

/-- A key that nothing describes. -/
theorem namedRight_new (hp : s.Placed) (hd : d.Proper) (he : s.entry key = none)
    (hr : s.record key = none) : NamedRight sameValue s key d ↔ s.NewFits key d := by
  have hown := ownProperty_absent he hr
  unfold NewFits
  cases hacc : d.isAccessor with
  | true =>
    obtain ⟨s', hcall, hright⟩ := installNewAccessor_right hp he hr hacc
    have happly : applyPropertyDescriptor sameValue s key d =
        if s.extensible then (s', .done) else (s, .refused) := by
      simp only [applyPropertyDescriptor, he, hr, hacc, if_true, hcall]
      cases s.extensible <;> rfl
    rw [namedRight_absent hown happly, hright]
    cases s.extensible <;> simp
  | false =>
    obtain ⟨s', hcall, hright⟩ := extend_right hp hd he hr hacc
    have happly : applyPropertyDescriptor sameValue s key d =
        if s.extensible then (s', .done) else (s, .refused) := by
      simp only [applyPropertyDescriptor, he, hr, hacc, Bool.false_eq_true, if_false, hcall]
      cases s.extensible <;> rfl
    rw [namedRight_absent hown happly, hright]
    cases s.extensible <;> simp

/-- **A named key** is defined right exactly when the condition on it holds. -/
theorem namedRight_iff (hp : s.Placed) (hd : d.Proper) :
    NamedRight sameValue s key d ↔ s.NamedFits sameValue key d := by
  unfold NamedFits
  cases he : s.entry key with
  | some e =>
    cases hacc : e.isAccessor with
    | true => exact namedRight_entryAccessor hd he hacc
    | false => exact namedRight_entryData hd he hacc
  | none =>
    cases hr : s.record key with
    | none => exact namedRight_new hp hd he hr
    | some r =>
      cases r with
      | data k slot a => exact namedRight_data hp hd he hr
      | accessor k g t a => exact namedRight_accessor hp hd he hr

end Named

end Store

end V12.Named
