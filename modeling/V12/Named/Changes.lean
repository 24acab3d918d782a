/-
V12.Named.Changes — what each change of a store does to its entries, its
layout and its cells.

`Sound` is what both object models rely on: the shape space keeps its edges,
no key is in the shape and in the dictionary, and every slot that is named has
a cell.
-/
import V12.Lib.Assoc
import V12.Named.Store

namespace V12.Named

open V12.Heap V12.Interp

namespace Store

variable {s s' : Store} {key : PropKey}

/-! ## §1 Entries, layout and cells under the changes -/

def layout (s : Store) (key : PropKey) : Option (Option Nat) := s.tree.layout s.object.shape key

theorem layout_eq (s : Store) (key : PropKey) : s.layout key = (s.record key).map Descriptor.slot :=
  rfl

theorem layout_eq_none : s.layout key = none ↔ s.record key = none := by
  simp [layout_eq]

theorem entry_eq (s : Store) (key : PropKey) :
    s.entry key = (s.object.dictionary.getD []).lookup key := rfl

theorem length_resized (cells : List JsValue) (n : Nat) (fill : JsValue) :
    (resized cells n fill).length = max cells.length n := by
  simp only [resized, List.length_append, List.length_replicate]
  omega

def size (s : Store) : Nat := s.object.properties.length

@[simp] theorem size_setCell (s : Store) (i : Nat) (v : JsValue) : (s.setCell i v).size = s.size := by
  simp [size, setCell, withObject]

@[simp] theorem size_growCell (s : Store) (i : Nat) (v fill : JsValue) :
    (s.growCell i v fill).size = max s.size (i + 1) := by
  simp [size, growCell, withObject, length_resized]

@[simp] theorem size_reserve (s : Store) (n : Nat) : (s.reserve n).size = max s.size n := by
  simp [size, reserve, withObject, length_resized]

@[simp] theorem size_pushCell (s : Store) (v : JsValue) : (s.pushCell v).size = s.size + 1 := by
  simp [size, pushCell, withObject]

@[simp] theorem size_bindShape (s : Store) (r : ShapeTree × Nat) : (s.bindShape r).size = s.size :=
  rfl

theorem size_le_growCell_bindShape (s : Store) (r : ShapeTree × Nat) (i : Nat) (v fill : JsValue) :
    s.size ≤ ((s.bindShape r).growCell i v fill).size := by
  rw [size_growCell, size_bindShape]
  exact Nat.le_max_left _ _

theorem entry_updateEntry (s : Store) (key k : PropKey) (f : DictEntry → DictEntry) :
    (s.updateEntry key f).entry k = if k = key then (s.entry k).map f else s.entry k := by
  simp only [entry_eq, updateEntry, withObject]
  cases s.object.dictionary with
  | none => simp
  | some entries => exact Lib.lookup_map_update key k f entries

theorem entry_removeEntry (s : Store) (key k : PropKey) :
    (s.removeEntry key).entry k = if k = key then none else s.entry k := by
  simp only [entry_eq, removeEntry, withObject]
  cases s.object.dictionary with
  | none => simp
  | some entries => exact Lib.lookup_filter_ne key k entries

theorem entry_fileEntry (hdict : s.object.dictionary.isSome = true) (key k : PropKey)
    (stored : JsValue) (attrs : Attrs) (getter setter : Option Nat) (isAccessor : Bool) :
    (s.withObject
        (Machine.fileEntry s.object key stored attrs getter setter isAccessor)).entry k =
      if k = key then
        some ⟨s.size, attrs, getter, setter, isAccessor, s.object.dictSeq⟩
      else s.entry k := by
  obtain ⟨entries, hentries⟩ := Option.isSome_iff_exists.mp hdict
  simp only [entry_eq, withObject, Machine.fileEntry, hentries, Option.map_some, Option.getD_some]
  by_cases hk : k = key
  · subst hk
    simp [size]
  · have hne : (k == key) = false := by simp [hk]
    rw [List.lookup_cons, hne, Lib.lookup_filter_ne, if_neg hk, if_neg hk]

theorem dictionary_spill (s : Store) : s.spill.object.dictionary.isSome = true := by
  unfold spill Machine.convertToDictionary withObject
  cases h : s.object.dictionary with
  | some d => simp [h]
  | none => simp

theorem entry_spill (s : Store) (k : PropKey) : s.spill.entry k = s.entry k := by
  simp only [entry_eq, spill, Machine.convertToDictionary, withObject]
  cases h : s.object.dictionary with
  | some d => simp [h]
  | none => simp

theorem layout_spill (s : Store) (k : PropKey) : s.spill.layout k = s.layout k := by
  simp only [layout, spill, Machine.convertToDictionary, withObject]
  cases s.object.dictionary <;> rfl

/-! ## §2 The invariant -/

/-- **What both models rely on.** -/
structure Sound (s : Store) : Prop where
  edges : s.tree.EdgesAddKeys
  valid : s.object.shape < s.tree.shapes.length
  separate : ∀ key e, s.entry key = some e → s.layout key = none
  shapeSlots : ∀ key n, s.layout key = some (some n) → n < s.size
  dictSlots : ∀ key e, s.entry key = some e → e.slot < s.size

theorem Sound.cells (h : Sound s) (htree : s'.tree = s.tree)
    (hshape : s'.object.shape = s.object.shape) (hdict : s'.object.dictionary = s.object.dictionary)
    (hsize : s.size ≤ s'.size) : Sound s' := by
  have hentry (k : PropKey) : s'.entry k = s.entry k := by rw [entry_eq, entry_eq, hdict]
  have hlayout (k : PropKey) : s'.layout k = s.layout k := by rw [layout, layout, htree, hshape]
  refine ⟨by rw [htree]; exact h.edges, by rw [htree, hshape]; exact h.valid, ?_, ?_, ?_⟩
  · intro key e he
    rw [hlayout]
    exact h.separate key e (hentry key ▸ he)
  · intro key n hn
    exact Nat.lt_of_lt_of_le (h.shapeSlots key n (hlayout key ▸ hn)) hsize
  · intro key e he
    exact Nat.lt_of_lt_of_le (h.dictSlots key e (hentry key ▸ he)) hsize

theorem Sound.entries (h : Sound s) (htree : s'.tree = s.tree)
    (hshape : s'.object.shape = s.object.shape) (hsize : s.size ≤ s'.size)
    (hentries : ∀ key e, s'.entry key = some e →
      (∃ e₀, s.entry key = some e₀ ∧ e.slot = e₀.slot) ∨
        (s.layout key = none ∧ e.slot < s'.size)) : Sound s' := by
  have hlayout (k : PropKey) : s'.layout k = s.layout k := by rw [layout, layout, htree, hshape]
  refine ⟨by rw [htree]; exact h.edges, by rw [htree, hshape]; exact h.valid, ?_, ?_, ?_⟩
  · intro key e he
    rw [hlayout]
    rcases hentries key e he with ⟨e₀, he₀, -⟩ | ⟨hnone, -⟩
    · exact h.separate key e₀ he₀
    · exact hnone
  · intro key n hn
    exact Nat.lt_of_lt_of_le (h.shapeSlots key n (hlayout key ▸ hn)) hsize
  · intro key e he
    rcases hentries key e he with ⟨e₀, he₀, hslot⟩ | ⟨-, hslot⟩
    · rw [hslot]
      exact Nat.lt_of_lt_of_le (h.dictSlots key e₀ he₀) hsize
    · exact hslot

theorem Sound.bind (h : Sound s) {r : ShapeTree × Nat}
    (hx : ShapeTree.Extends s.tree s.object.shape key r) (htree : s'.tree = r.1.bind r.2)
    (hshape : s'.object.shape = r.2) (hdict : s'.object.dictionary = s.object.dictionary)
    (hsize : s.size ≤ s'.size) (hkey : s.entry key = none)
    (hslot : ∀ n, r.1.layout r.2 key = some (some n) → n < s'.size) : Sound s' := by
  have hbind := ShapeTree.keepsLayout_bind r.1 r.2
  have hentry (k : PropKey) : s'.entry k = s.entry k := by rw [entry_eq, entry_eq, hdict]
  have hself (k : PropKey) : s'.layout k = r.1.layout r.2 k := by
    rw [layout, htree, hshape, hbind.layout hx.valid]
  have hothers (k : PropKey) (hk : k ≠ key) : s'.layout k = s.layout k := by
    rw [hself, hx.adds.others k hk, hx.keeps.layout h.valid]
    rfl
  refine ⟨?_, ?_, ?_, ?_, ?_⟩
  · rw [htree]
    exact ShapeTree.EdgesAddKeys.of_keepsLayout hx.edges hbind (ShapeTree.edgesFrom_bind _ _)
  · rw [htree, hshape]
    exact Nat.lt_of_lt_of_le hx.valid hbind.length
  · intro k e he
    rw [hentry] at he
    have hk : k ≠ key := by
      intro hk
      rw [hk, hkey] at he
      cases he
    rw [hothers k hk]
    exact h.separate k e he
  · intro k n hn
    by_cases hk : k = key
    · subst hk
      exact hslot n (hself k ▸ hn)
    · exact Nat.lt_of_lt_of_le (h.shapeSlots k n (hothers k hk ▸ hn)) hsize
  · intro k e he
    exact Nat.lt_of_lt_of_le (h.dictSlots k e (hentry k ▸ he)) hsize

theorem Sound.shapes (h : Sound s) (op : ShapeOp) :
    Sound { s with tree := s.tree.step op } := by
  obtain ⟨hedges, hkeep⟩ := ShapeTree.keepsLayout_step h.edges op
  have hlayout (k : PropKey) : ({ s with tree := s.tree.step op } : Store).layout k = s.layout k :=
    hkeep.layout h.valid k
  refine ⟨hedges, Nat.lt_of_lt_of_le h.valid hkeep.length, ?_, ?_, h.dictSlots⟩
  · intro key e he
    rw [hlayout]
    exact h.separate key e he
  · intro key n hn
    exact h.shapeSlots key n (hlayout key ▸ hn)

/-! ## §3 The changes keep it -/

theorem sound_setCell (h : Sound s) (i : Nat) (v : JsValue) : Sound (s.setCell i v) :=
  h.cells rfl rfl rfl (by simp)

theorem sound_growCell (h : Sound s) (i : Nat) (v fill : JsValue) :
    Sound (s.growCell i v fill) :=
  h.cells rfl rfl rfl (by rw [size_growCell]; exact Nat.le_max_left _ _)

theorem sound_writeCell (h : Sound s) (i : Nat) (v : JsValue) :
    Sound (s.writeCell i v).1 := by
  unfold writeCell
  split
  · exact sound_setCell h i v
  · exact h

theorem sound_updateEntry (h : Sound s) (key : PropKey) {f : DictEntry → DictEntry}
    (hf : ∀ e, (f e).slot = e.slot) : Sound (s.updateEntry key f) := by
  refine h.entries rfl rfl (Nat.le_refl _) fun k e he => Or.inl ?_
  rw [entry_updateEntry] at he
  by_cases hk : k = key
  · rw [if_pos hk] at he
    obtain ⟨e₀, he₀, rfl⟩ := Option.map_eq_some_iff.mp he
    exact ⟨e₀, he₀, hf e₀⟩
  · rw [if_neg hk] at he
    exact ⟨e, he, rfl⟩

theorem sound_removeEntry (h : Sound s) (key : PropKey) : Sound (s.removeEntry key) := by
  refine h.entries rfl rfl (Nat.le_refl _) fun k e he => Or.inl ?_
  rw [entry_removeEntry] at he
  split at he
  · cases he
  · exact ⟨e, he, rfl⟩

theorem sound_spill (h : Sound s) : Sound s.spill := by
  have hobject : s.spill.object.shape = s.object.shape ∧
      s.spill.object.properties = s.object.properties := by
    unfold spill Machine.convertToDictionary withObject
    cases s.object.dictionary <;> exact ⟨rfl, rfl⟩
  have hsize : s.spill.size = s.size := congrArg List.length hobject.2
  refine h.entries rfl hobject.1 (Nat.le_of_eq hsize.symm) fun k e he => Or.inl ?_
  rw [entry_spill] at he
  exact ⟨e, he, rfl⟩

theorem sound_fileEntry (h : Sound s) (hdict : s.object.dictionary.isSome = true)
    (hkey : s.layout key = none) (stored : JsValue) (attrs : Attrs) (getter setter : Option Nat)
    (isAccessor : Bool) :
    Sound (s.withObject
      (Machine.fileEntry s.object key stored attrs getter setter isAccessor)) := by
  have hsize : (s.withObject (Machine.fileEntry s.object key stored attrs getter setter
      isAccessor)).size = s.size + 1 := by
    simp [size, withObject, Machine.fileEntry]
  refine h.entries rfl rfl (by omega) fun k e he => ?_
  rw [entry_fileEntry hdict] at he
  by_cases hk : k = key
  · rw [if_pos hk, Option.some.injEq] at he
    subst he
    exact Or.inr ⟨hk ▸ hkey, by simp only; omega⟩
  · rw [if_neg hk] at he
    exact Or.inl ⟨e, he, rfl⟩

theorem growCell_size (s : Store) (v fill : JsValue) : s.growCell s.size v fill = s.pushCell v := by
  have hsub : s.object.properties.length + 1 - s.object.properties.length = 1 := by omega
  simp [growCell, pushCell, size, resized, hsub]

theorem addProperty_valid {t : ShapeTree} {parent : Nat} (h : parent < t.shapes.length)
    (key : PropKey) (attrs : Attrs) : t.addProperty parent key attrs ≠ none := by
  obtain ⟨q, hq⟩ : ∃ q, t.get? parent = some q := ⟨_, List.getElem?_eq_getElem h⟩
  unfold ShapeTree.addProperty
  rw [hq]
  dsimp only
  split <;> simp

theorem updateDataAttrs_valid {t : ShapeTree} {parent : Nat} (h : parent < t.shapes.length)
    (key : PropKey) (attrs : Attrs) : t.updateDataAttrs parent key attrs ≠ none := by
  obtain ⟨q, hq⟩ : ∃ q, t.get? parent = some q := ⟨_, List.getElem?_eq_getElem h⟩
  unfold ShapeTree.updateDataAttrs
  rw [hq]
  dsimp only
  split
  · simp
  · split <;> simp

end Store

end V12.Named
