/-
V12.Named.OwnProperties — the own properties of an object, and what a
descriptor asks of one.

`validateAndApply` is `ValidateAndApplyPropertyDescriptor` of ECMAScript.
-/
import V12.Heap.ElementsSnapshot
import V12.Interp.ArrayIndexTheorems
import V12.Named.Agreement

namespace V12.Named

open V12.Heap V12.Interp

/-! ## §1 Properties and descriptors -/

/-- An own property with the fields of its kind. -/
inductive Property where
  | data (value : JsValue) (writable enumerable configurable : Bool)
  | accessor (getter setter : Option Nat) (enumerable configurable : Bool)
  deriving DecidableEq

def shown : JsValue → JsValue
  | .smi n => .double (f64OfInt n)
  | v => v

theorem filter_live {v : JsValue} (h : v ≠ .hole) : ((some v).filter fun u => !u.isHole) = some v :=
  present_of_ne_hole fun hv => h (Option.some.inj hv)

theorem shown_eq_of_sameNumber {a b : JsValue} (h : JsValue.SameNumber a b) : shown a = shown b := by
  cases h <;> rfl

namespace Property

def enumerable : Property → Bool
  | .data _ _ e _ => e
  | .accessor _ _ e _ => e

def configurable : Property → Bool
  | .data _ _ _ c => c
  | .accessor _ _ _ c => c

def shown : Property → Property
  | .data v w e c => .data (Named.shown v) w e c
  | p => p

def ofData (v : JsValue) (a : Attrs) : Property := .data v a.writable a.enumerable a.configurable

def ofAccessor (getter setter : Option Nat) (a : Attrs) : Property :=
  .accessor getter setter a.enumerable a.configurable

/-- `IsCompatiblePropertyDescriptor` on a property that is there. -/
def permits (sameValue : JsValue → JsValue → Bool) (current : Property) (d : PartialDescriptor) :
    Bool :=
  current.configurable ||
    (d.configurable != some true && d.enumerable.all (· = current.enumerable) &&
      match current with
      | .data value writable _ _ =>
        !d.isAccessor &&
          (writable || (d.writable != some true && d.value.all fun v => sameValue v value))
      | .accessor getter setter _ _ =>
        !d.isData && d.get.all (· = getter) && d.set.all (· = setter))

/-- A property made from a descriptor: absent fields get their defaults. -/
def created (d : PartialDescriptor) : Property :=
  if d.isAccessor then
    .accessor (d.get.getD none) (d.set.getD none) (d.enumerable.getD false)
      (d.configurable.getD false)
  else
    .data (d.value.getD .undefined) (d.writable.getD false) (d.enumerable.getD false)
      (d.configurable.getD false)

/-- A property with a descriptor applied: absent fields are kept, those of the
other kind get their defaults. -/
def redefined (current : Property) (d : PartialDescriptor) : Property :=
  match current with
  | .data value writable e c =>
    if d.isAccessor then
      .accessor (d.get.getD none) (d.set.getD none) (d.enumerable.getD e) (d.configurable.getD c)
    else
      .data (d.value.getD value) (d.writable.getD writable) (d.enumerable.getD e)
        (d.configurable.getD c)
  | .accessor getter setter e c =>
    if d.isData then
      .data (d.value.getD .undefined) (d.writable.getD false) (d.enumerable.getD e)
        (d.configurable.getD c)
    else
      .accessor (d.get.getD getter) (d.set.getD setter) (d.enumerable.getD e)
        (d.configurable.getD c)

end Property

/-- `ValidateAndApplyPropertyDescriptor`: the property afterwards, `none` when
the descriptor is refused. -/
def validateAndApply (sameValue : JsValue → JsValue → Bool) (extensible : Bool)
    (current : Option Property) (d : PartialDescriptor) : Option Property :=
  match current with
  | none => if extensible then some (.created d) else none
  | some p => if p.permits sameValue d then some (p.redefined d) else none

section Attributes

variable (w e c : Bool) (d : PartialDescriptor) (a : Attrs)

@[simp] theorem writable_attrsOf : (attrsOf w e c).writable = w := by
  cases w <;> cases e <;> cases c <;> rfl

@[simp] theorem enumerable_attrsOf : (attrsOf w e c).enumerable = e := by
  cases w <;> cases e <;> cases c <;> rfl

@[simp] theorem configurable_attrsOf : (attrsOf w e c).configurable = c := by
  cases w <;> cases e <;> cases c <;> rfl

@[simp] theorem writable_mergedAttrs : (d.mergedAttrs a).writable = d.writable.getD a.writable :=
  writable_attrsOf _ _ _

@[simp] theorem enumerable_mergedAttrs :
    (d.mergedAttrs a).enumerable = d.enumerable.getD a.enumerable := enumerable_attrsOf _ _ _

@[simp] theorem configurable_mergedAttrs :
    (d.mergedAttrs a).configurable = d.configurable.getD a.configurable :=
  configurable_attrsOf _ _ _

@[simp] theorem writable_freshAttrs : d.freshAttrs.writable = d.writable.getD false :=
  writable_attrsOf _ _ _

@[simp] theorem enumerable_freshAttrs : d.freshAttrs.enumerable = d.enumerable.getD false :=
  enumerable_attrsOf _ _ _

@[simp] theorem configurable_freshAttrs : d.freshAttrs.configurable = d.configurable.getD false :=
  configurable_attrsOf _ _ _

end Attributes

/-! ## §2 Named properties -/

namespace Store

/-- A record as a property: its cell is at the biased index on a realm's
global, and a hole is an absent property. -/
def recordProperty (s : Store) : Descriptor → Option Property
  | .data _ slot attrs => (s.liveCell (s.slotIndex slot)).map fun v => .ofData v attrs
  | .accessor _ getter setter attrs => some (.ofAccessor getter setter attrs)

/-- An entry as a property; entries are filed under the plain index. -/
def entryProperty (s : Store) (e : DictEntry) : Option Property :=
  if e.isAccessor then some (.ofAccessor e.getter e.setter e.attrs)
  else (s.liveCell e.slot).map fun v => .ofData v e.attrs

/-- The own property of a named key: the dictionary first, then the shape. -/
def ownProperty (s : Store) (key : PropKey) : Option Property :=
  match s.entry key with
  | some e => s.entryProperty e
  | none => (s.record key).bind s.recordProperty

/-- What the shape space keeps in every state: its edges add their keys, and the
object's shape is there. -/
structure Placed (s : Store) : Prop where
  edges : s.tree.EdgesAddKeys
  valid : s.object.shape < s.tree.shapes.length

variable {s : Store} {key : PropKey}

theorem ownProperty_entry {e : DictEntry} (h : s.entry key = some e) :
    s.ownProperty key = s.entryProperty e := by
  simp only [ownProperty, h]

theorem ownProperty_record {d : Descriptor} (he : s.entry key = none) (hd : s.record key = some d) :
    s.ownProperty key = s.recordProperty d := by
  simp only [ownProperty, he, hd, Option.bind_some]

theorem ownProperty_absent (he : s.entry key = none) (hd : s.record key = none) :
    s.ownProperty key = none := by
  simp only [ownProperty, he, hd, Option.bind_none]

/-! ## §3 What a change does to cells, entries and records -/

theorem getElem?_resized (cells : List JsValue) (n i : Nat) (fill : JsValue) :
    (resized cells n fill)[i]? =
      if i < cells.length then cells[i]? else if i < n then some fill else none := by
  unfold resized
  by_cases hi : i < cells.length
  · rw [List.getElem?_append_left hi, if_pos hi]
  · rw [List.getElem?_append_right (Nat.le_of_not_lt hi), if_neg hi, List.getElem?_replicate]
    by_cases hn : i < n
    · rw [if_pos hn, if_pos (by omega)]
    · rw [if_neg hn, if_neg (by omega)]

theorem liveCell_growCell (s : Store) (i j : Nat) (v : JsValue) :
    (s.growCell i v .hole).liveCell j =
      if j = i then (some v).filter fun u => !u.isHole else s.liveCell j := by
  simp only [liveCell, cell, growCell, withObject]
  by_cases hj : j = i
  · subst hj
    have hlen : j < (resized s.object.properties (j + 1) .hole).length := by
      rw [length_resized]
      omega
    rw [if_pos rfl, List.getElem?_set_self hlen]
  · rw [if_neg hj, List.getElem?_set_ne (Ne.symm hj), getElem?_resized]
    split
    · rfl
    · next hlt =>
      rw [List.getElem?_eq_none (Nat.le_of_not_lt hlt)]
      split <;> rfl

theorem liveCell_pushCell (s : Store) (j : Nat) (v : JsValue) :
    (s.pushCell v).liveCell j =
      if j = s.size then (some v).filter fun u => !u.isHole else s.liveCell j := by
  rw [← growCell_size s v .hole]
  exact liveCell_growCell s s.size j v

@[simp] theorem entry_growCell (i : Nat) (v fill : JsValue) (k : PropKey) :
    (s.growCell i v fill).entry k = s.entry k := rfl

@[simp] theorem record_growCell (i : Nat) (v fill : JsValue) (k : PropKey) :
    (s.growCell i v fill).record k = s.record k := rfl

@[simp] theorem slotIndex_growCell (i : Nat) (v fill : JsValue) (n : Nat) :
    (s.growCell i v fill).slotIndex n = s.slotIndex n := rfl

@[simp] theorem entry_pushCell (v : JsValue) (k : PropKey) : (s.pushCell v).entry k = s.entry k := rfl

@[simp] theorem record_pushCell (v : JsValue) (k : PropKey) :
    (s.pushCell v).record k = s.record k := rfl

@[simp] theorem slotIndex_pushCell (v : JsValue) (n : Nat) :
    (s.pushCell v).slotIndex n = s.slotIndex n := rfl

@[simp] theorem entry_reserve (n : Nat) (k : PropKey) : (s.reserve n).entry k = s.entry k := rfl

@[simp] theorem record_reserve (n : Nat) (k : PropKey) : (s.reserve n).record k = s.record k := rfl

@[simp] theorem entry_bindShape (r : ShapeTree × Nat) (k : PropKey) :
    (s.bindShape r).entry k = s.entry k := rfl

@[simp] theorem record_bindShape (r : ShapeTree × Nat) (k : PropKey) :
    (s.bindShape r).record k = r.1.lookup r.2 k :=
  (ShapeTree.sameShape_bind r.1 r.2 r.2).lookup k

@[simp] theorem liveCell_bindShape (r : ShapeTree × Nat) (i : Nat) :
    (s.bindShape r).liveCell i = s.liveCell i := rfl

@[simp] theorem slotIndex_bindShape (r : ShapeTree × Nat) (i : Nat) :
    (s.bindShape r).slotIndex i = s.slotIndex i := rfl

@[simp] theorem liveCell_updateEntry (f : DictEntry → DictEntry) (i : Nat) :
    (s.updateEntry key f).liveCell i = s.liveCell i := rfl

@[simp] theorem record_updateEntry (f : DictEntry → DictEntry) (k : PropKey) :
    (s.updateEntry key f).record k = s.record k := rfl

theorem ownProperty_insertEntry (hdict : s.object.dictionary.isSome = true) (v : JsValue)
    (attrs : Attrs) :
    (s.insertEntry key v attrs).ownProperty key =
      ((some v).filter fun u => !u.isHole).map fun u => .ofData u attrs := by
  have hentry : (s.insertEntry key v attrs).entry key =
      some ⟨s.size, attrs, none, none, false, s.object.dictSeq⟩ := by
    have hfile := entry_fileEntry hdict key key v attrs none none false
    rwa [if_pos rfl] at hfile
  rw [ownProperty_entry hentry]
  have hcell : (s.insertEntry key v attrs).liveCell s.size =
      (some v).filter fun u => !u.isHole := by
    have hpush := liveCell_pushCell s s.size v
    rw [if_pos rfl] at hpush
    exact hpush
  simp only [entryProperty, Bool.false_eq_true, if_false, hcell]

theorem ownProperty_fileAccessor (hdict : s.object.dictionary.isSome = true) (attrs : Attrs)
    (getter setter : Option Nat) :
    (s.withObject (Machine.fileEntry s.object key .hole attrs getter setter true)).ownProperty key =
      some (.ofAccessor getter setter attrs) := by
  have hentry := entry_fileEntry hdict key key .hole attrs getter setter true
  rw [if_pos rfl] at hentry
  rw [ownProperty_entry hentry]
  simp only [entryProperty, if_true]

theorem ownProperty_convertKeyToAccessor (s : Store) (key : PropKey) (attrs : Attrs)
    (getter setter : Option Nat) :
    (s.withObject
        (Machine.convertKeyToAccessor s.object s.numOwn key attrs getter setter)).ownProperty key =
      some (.ofAccessor getter setter attrs) :=
  ownProperty_fileAccessor (s := s.spill) (dictionary_spill s) attrs getter setter

theorem ownProperty_convertKeyToData (s : Store) (key : PropKey) (attrs : Attrs)
    (value : Option JsValue) (hvalue : value.getD .undefined ≠ .hole) :
    (s.withObject (Machine.convertKeyToData s.object s.numOwn key attrs value)).ownProperty key =
      some (.ofData (value.getD .undefined) attrs) := by
  have h : (s.spill.insertEntry key (value.getD .undefined) attrs).ownProperty key = _ :=
    ownProperty_insertEntry (dictionary_spill s) (value.getD .undefined) attrs
  rw [filter_live hvalue] at h
  exact h

end Store
end V12.Named
