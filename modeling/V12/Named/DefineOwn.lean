/-
V12.Named.DefineOwn — the engine's `apply_property_descriptor` against
`ValidateAndApplyPropertyDescriptor`, from
`v12-engine/src/internal_methods.rs`.

An index of an array or of an arguments object is an element: data only, its
attributes all true whatever was asked for (`StoresElement`). Every other key is
a named one, and `Store.NamedFits` says by where it lives (an entry of the
dictionary, a record of the shape, or nowhere) what must not get in the way for
the engine to do what the algorithm specifies.
-/
import V12.Heap.ShapeKinds
import V12.Named.OwnProperties

namespace V12.Named

open V12.Heap V12.Interp

/-! ## §1 Objects with elements -/

abbrev KeyTexts := PropKey → Option StrStorage

/-- An object: its named properties and its elements (`store.object`). -/
structure ObjectState where
  store : Store

namespace ObjectState

/-- `kind == Arguments || kind == Array`. -/
def hasElements (o : ObjectState) : Bool :=
  o.store.object.kind = .array || o.store.object.kind = .arguments

/-- `prop_key_as_index` on the kinds with elements: the key is an element's. -/
def keyIndex (texts : KeyTexts) (o : ObjectState) (key : PropKey) : Option Nat :=
  if o.hasElements then (texts key).bind propKeyAsIndex else none

/-- The attributes that an element's descriptor reports: all true. -/
def elementAttrs : Attrs := attrsOf true true true

def ownElement (o : ObjectState) (i : Nat) : Option Property :=
  (present (o.store.object.getElement i)).map fun v => .ofData v elementAttrs

def ownProperty (texts : KeyTexts) (o : ObjectState) (key : PropKey) : Option Property :=
  match o.keyIndex texts key with
  | some i => o.ownElement i
  | none => o.store.ownProperty key

def withElement (o : ObjectState) (i : Nat) (v : JsValue) : ObjectState :=
  { o with store := o.store.withObject (o.store.object.setElement i v) }

/-- `apply_property_descriptor`. -/
def applyPropertyDescriptor (texts : KeyTexts) (sameValue : JsValue → JsValue → Bool)
    (o : ObjectState) (key : PropKey) (d : PartialDescriptor) : ObjectState × Answer :=
  match o.keyIndex texts key with
  | some i =>
    if d.isAccessor then (o, .refused)
    else
      match d.value with
      | some v => (o.withElement i v, .done)
      | none => (o, .done)
  | none =>
    let (store, answer) := Store.applyPropertyDescriptor sameValue o.store key d
    ({ o with store := store }, answer)

end ObjectState

/-! ## §2 The property -/

/-- A descriptor a program can give: of one kind, its value a value. -/
structure PartialDescriptor.Proper (d : PartialDescriptor) : Prop where
  oneKind : d.isData = false ∨ d.isAccessor = false
  value : ∀ v, d.value = some v → v.IsBoxed ∧ v ≠ .hole

/-- The states of an object: the shape space keeps its edges and an array its
element storage. -/
structure ObjectState.Valid (o : ObjectState) : Prop where
  placed : o.store.Placed
  elements : o.store.object.elementsArray.WellFormed

section Definitions

variable (texts : KeyTexts) (sameValue : JsValue → JsValue → Bool)

/-- The definition is refused, with the object as it was, when
`ValidateAndApplyPropertyDescriptor` refuses it, and otherwise done, and the
property then has the fields that algorithm specifies. -/
def DefinesRight (o : ObjectState) (key : PropKey) (d : PartialDescriptor) : Prop :=
  match validateAndApply sameValue o.store.extensible (o.ownProperty texts key) d with
  | none => o.applyPropertyDescriptor texts sameValue key d = (o, .refused)
  | some p =>
    (o.applyPropertyDescriptor texts sameValue key d).2 = .done ∧
      ((o.applyPropertyDescriptor texts sameValue key d).1.ownProperty texts key).map
        Property.shown = some p.shown

/-! ## §3 The condition -/

def SameAccess (a b : Attrs) : Prop :=
  a.enumerable = b.enumerable ∧ a.configurable = b.configurable

/-- A write of `v` to cell `j` shows in cell `i`. -/
def Store.Lands (s : Store) (i j : Nat) (v : JsValue) : Prop :=
  i = j ∨ (s.liveCell i).map shown = some (shown v)

def SameFlags (a b : Attrs) : Prop :=
  a.writable = b.writable ∧ a.enumerable = b.enumerable ∧ a.configurable = b.configurable

/-- The record that a data transition leads to has the attributes `want`: the
successor that the shape already has for the key and `attrs`, or else a new one
with `attrs`. -/
def Store.DataSuccessor (s : Store) (key : PropKey) (attrs want : Attrs) : Prop :=
  match s.tree.edge? s.object.shape key attrs with
  | some child => ∃ slot a, s.tree.lookup child key = some (.data key slot a) ∧ SameFlags a want
  | none => SameFlags attrs want

/-- The attributes after a redefinition as data are `want`. -/
def Store.Remade (s : Store) (key : PropKey) (current merged want : Attrs) : Prop :=
  if merged = current then SameFlags current want else s.DataSuccessor key merged want

/-- An accessor merged into one with `g`, `t` and `a` is itself, with the flags
`e` and `c`: an absent half keeps the other's, and the attributes change with
a half only. -/
def Merges (getter setter : Option Nat) (attrs : Attrs) (e c : Bool) (g t : Option Nat)
    (a : Attrs) : Prop :=
  getter.or g = getter ∧ setter.or t = setter ∧
    if getter = g ∧ setter = t then a.enumerable = e ∧ a.configurable = c
    else attrs.enumerable = e ∧ attrs.configurable = c

/-- The accessor that `define_accessor` merges into, the known successor's or
else the shape's own, does not get in the way. -/
def Store.AccessorSuccessor (s : Store) (key : PropKey) (getter setter : Option Nat)
    (attrs : Attrs) (e c : Bool) : Prop :=
  match s.tree.lookup ((s.tree.edge? s.object.shape key attrs).getD s.object.shape) key with
  | some (.accessor _ g t a) => Merges getter setter attrs e c g t a
  | _ =>
    -- nothing to merge into: the shape's own record stays the first
    match s.record key with
    | some (.accessor _ g t a) =>
      getter = g ∧ setter = t ∧ a.enumerable = e ∧ a.configurable = c
    | _ => attrs.enumerable = e ∧ attrs.configurable = c

/-- A key with an entry or a record but no value is a new property: `kept` is
what its cell has, and the attributes it is validated against are `a`. -/
def HoleFits (extensible : Bool) (a : Attrs) (kept : JsValue) (d : PartialDescriptor)
    (fits : Prop) : Prop :=
  if extensible then Store.validateRedefine sameValue a false kept none none d = true ∧ fits
  else Store.validateRedefine sameValue a false kept none none d = false

/-- An entry of the dictionary. An accessor does not become data, and a deleted
entry keeps its attributes where the descriptor has none. -/
def Store.EntryFits (s : Store) (e : DictEntry) (d : PartialDescriptor) : Prop :=
  if e.isAccessor then
    (Property.ofAccessor e.getter e.setter e.attrs).permits sameValue d = true → d.isData = false
  else
    match s.liveCell e.slot with
    | some _ => True
    | none =>
      HoleFits sameValue s.extensible e.attrs ((s.cell e.slot).getD .undefined) d
        (if d.isAccessor then SameAccess (d.mergedAttrs e.attrs) d.freshAttrs
          else d.value.isSome = true ∧ SameFlags (d.mergedAttrs e.attrs) d.freshAttrs)

/-- A shape's accessor. A descriptor of neither kind makes data of it, data keeps
its writable bit, and a half drops the flags. -/
def Store.AccessorFits (s : Store) (key : PropKey) (g t : Option Nat) (a : Attrs)
    (d : PartialDescriptor) : Prop :=
  (Property.ofAccessor g t a).permits sameValue d = true →
    d.isGeneric = false ∧
      (d.isData = true → d.writable.getD false = d.writable.getD a.writable) ∧
      (d.isAccessor = true →
        s.AccessorSuccessor key (d.get.getD g) (d.set.getD t) a
          (d.enumerable.getD a.enumerable) (d.configurable.getD a.configurable))

/-- A shape's data. An accessor keeps the attributes it had, a value goes to the
plain slot, and a deleted property is validated as if it were there. -/
def Store.DataFits (s : Store) (key : PropKey) (slot : Nat) (a : Attrs) (d : PartialDescriptor) :
    Prop :=
  let kept := (s.cell slot).getD .undefined
  match s.liveCell (s.slotIndex slot) with
  | some v =>
    Store.validateRedefine sameValue a false kept none none d =
        (Property.ofData v a).permits sameValue d ∧
      ((Property.ofData v a).permits sameValue d = true →
        if d.isAccessor then SameAccess a (d.mergedAttrs a)
        else (∀ u, d.value = some u → s.Lands (s.slotIndex slot) slot u) ∧
          s.Remade key a (d.mergedAttrs a) (d.mergedAttrs a))
  | none =>
    HoleFits sameValue s.extensible a kept d
      (if d.isAccessor then SameAccess a d.freshAttrs
        else d.value.isSome = true ∧ s.slotIndex slot = slot ∧
          s.Remade key a (d.mergedAttrs a) d.freshAttrs)

/-- A key with neither: the dictionary takes any property, the shape one that no
known successor gets in the way of, in a cell of its own. -/
def Store.NewFits (s : Store) (key : PropKey) (d : PartialDescriptor) : Prop :=
  s.extensible = true → s.object.dictionary = none → s.numOwn < Store.namedDictThreshold →
    if d.isAccessor then
      s.AccessorSuccessor key (d.get.getD none) (d.set.getD none)
        (attrsOf false (d.enumerable.getD false) (d.configurable.getD false))
        (d.enumerable.getD false) (d.configurable.getD false)
    else
      s.DataSuccessor key d.freshAttrs d.freshAttrs ∧
        s.Lands (s.slotIndex s.numOwn)
          (if s.object.kind = .array ∨ s.object.kind = .arguments then s.numOwn else s.size)
          (d.value.getD .undefined)

def Store.NamedFits (s : Store) (key : PropKey) (d : PartialDescriptor) : Prop :=
  match s.entry key with
  | some e => s.EntryFits sameValue e d
  | none =>
    match s.record key with
    | some (.accessor _ g t a) => s.AccessorFits sameValue key g t a d
    | some (.data _ slot a) => s.DataFits sameValue key slot a d
    | none => s.NewFits key d

/-- The element store takes a write at the index: off an array, not far above
the stored region. -/
def ObjectState.Reaches (o : ObjectState) (i : Nat) : Prop :=
  o.store.object.kind = .array ∨
    i - o.store.object.elements.length ≤ ELEMENTS_TO_DICTIONARY_INDEX

instance (o : ObjectState) (i : Nat) : Decidable (o.Reaches i) := inferInstanceAs (Decidable (_ ∨ _))

/-! ## §4 The design -/

/-- Elements are data only: an accessor is refused, and of any other descriptor
the value counts, which goes to the element store. No other element and no named
property changes. -/
def StoresElement (o : ObjectState) (i : Nat) (d : PartialDescriptor) (r : ObjectState × Answer) :
    Prop :=
  if d.isAccessor then r = (o, .refused)
  else
    r.2 = .done ∧
      (∀ j, (r.1.ownElement j).map Property.shown =
        match d.value with
        | some v =>
          if j = i ∧ o.Reaches i then some (Property.ofData v ObjectState.elementAttrs).shown
          else (o.ownElement j).map Property.shown
        | none => (o.ownElement j).map Property.shown) ∧
      ∀ key, r.1.store.ownProperty key = o.store.ownProperty key

/-- What a definition does: an element of an extensible object is stored, an
accessor at an index refused on any object, and a named key is defined as the
algorithm specifies where nothing gets in the way. -/
def DefinesByDesign (o : ObjectState) (key : PropKey) (d : PartialDescriptor) : Prop :=
  match o.keyIndex texts key with
  | some i =>
    d.isAccessor = true ∨ o.store.extensible = true →
      StoresElement o i d (o.applyPropertyDescriptor texts sameValue key d)
  | none => o.store.NamedFits sameValue key d → DefinesRight texts sameValue o key d

end Definitions

end V12.Named
