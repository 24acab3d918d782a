/-
V12.Named.DefineOwnTheorems — when the engine defines an own property as
the algorithm specifies, over every key.

Elements of arrays and arguments objects are data without attributes of
their own (§1); every other key is a named one (§2), for which
`Store.namedRight_iff` has the exact condition. `definesByDesign` puts the two
together.
-/
import V12.Named.DefineNamed

namespace V12.Named

open V12.Heap V12.Interp

variable {sameValue : JsValue → JsValue → Bool}

/-! ## §1 Elements -/

theorem reads_set {e : ElementsStorage} (h : e.WellFormed) (i : Nat) {v : JsValue}
    (hv : v.IsBoxed) (hne : v ≠ .hole) (j : Nat) :
    ElementsStorage.Reads ((e.set i v).getBoxed j)
      (if j = i then some v else e.getBoxed j) := by
  have hpresent : present (some v) = some v := present_of_ne_hole fun h => hne (Option.some.inj h)
  cases h with
  | flat hf ha hlen =>
    cases hplan : e.plan (classify v) i with
    | some k =>
      have hread := (ElementsStorage.written_of_plan hf ha hlen hv hplan).reads j
      rwa [hpresent] at hread
    | none =>
      have hbound : e.slots.length < 2 ^ 32 := by
        unfold ELEMENTS_TO_DICTIONARY_INDEX at hlen
        omega
      obtain ⟨-, -, hget⟩ := ElementsStorage.dictionaryOf_spec hbound fun u hu => (ha u hu).isBoxed
      rw [ElementsStorage.set_of_escape hf ha hv hplan, ElementsStorage.getBoxed,
        ElementsDictionary.get_insert, hget, ElementsStorage.getBoxed_eq_of_isFlat hf ha]
      exact .refl _
  | dictionary hwf =>
    rw [ElementsStorage.set_dictionary hv, ElementsStorage.getBoxed, ElementsDictionary.get_insert]
    exact .refl _

theorem present_present (u : Option JsValue) : present (present u) = present u := by
  unfold present
  rw [Option.filter_filter]
  simp only [Bool.and_self]

theorem shown_of_reads {a b : Option JsValue} (h : ElementsStorage.Reads a b) :
    (present a).map shown = (present b).map shown := by
  cases h with
  | none => rfl
  | some hsame =>
    rw [present_some, present_some, hsame.isHole_eq]
    split
    · rfl
    · exact congrArg some (shown_eq_of_sameNumber hsame)

namespace ObjectState

variable {o : ObjectState} {texts : KeyTexts} {i : Nat} {d : PartialDescriptor} {key : PropKey}

theorem kind_setElement (x : JsObject) (i : Nat) (v : JsValue) : (x.setElement i v).kind = x.kind := by
  unfold JsObject.setElement
  split
  · rfl
  · split
    · rfl
    · split <;> rfl

theorem setElement_of_not_reaches (v : JsValue) (hreach : ¬ o.Reaches i) :
    o.store.object.setElement i v = o.store.object ∧ o.ownElement i = none := by
  obtain ⟨harray, hfar⟩ := not_or.mp hreach
  have hge : ¬ i < o.store.object.elements.length := by omega
  constructor
  · rw [JsObject.setElement, if_neg harray, if_neg hge, if_pos (by omega)]
  · rw [ownElement, JsObject.getElement, if_neg harray,
      List.getElem?_eq_none (Nat.le_of_not_lt hge)]
    rfl

theorem shown_setElement (ho : o.Valid) {v : JsValue} (hv : v.IsBoxed) (hne : v ≠ .hole) (j : Nat) :
    (present ((o.store.object.setElement i v).getElement j)).map shown =
      if j = i ∧ o.Reaches i then some (shown v)
      else (present (o.store.object.getElement j)).map shown := by
  have hpresent : present (some v) = some v := present_of_ne_hole fun h => hne (Option.some.inj h)
  by_cases hreach : o.Reaches i
  · have hself : (if j = i ∧ o.Reaches i then some (shown v)
        else (present (o.store.object.getElement j)).map shown) =
        (present (if j = i then some v else o.store.object.getElement j)).map shown := by
      by_cases hj : j = i
      · rw [if_pos ⟨hj, hreach⟩, if_pos hj, hpresent, Option.map_some]
      · rw [if_neg (fun h => hj h.1), if_neg hj]
    rw [hself]
    by_cases harray : o.store.object.kind = .array
    · have hread := reads_set ho.elements i hv hne j
      simp only [JsObject.setElement, JsObject.getElement, if_pos harray]
      exact shown_of_reads hread
    · have hstored : (o.store.object.setElement i v).elements =
          ElementsStorage.putAt (o.store.object.elements ++
            List.replicate (i - o.store.object.elements.length) .hole) i v := by
        have hnear := hreach.resolve_left harray
        have hfar : ¬ (i - o.store.object.elements.length > ELEMENTS_TO_DICTIONARY_INDEX) := by omega
        simp only [JsObject.setElement, if_neg harray, if_neg hfar, ElementsStorage.putAt, List.length_append,
          List.length_replicate]
        by_cases hlt : i < o.store.object.elements.length
        · rw [if_pos hlt, if_pos (by omega), Nat.sub_eq_zero_of_le (Nat.le_of_lt hlt)]
          simp
        · rw [if_neg hlt, if_neg (by omega)]
      have hkind : (o.store.object.setElement i v).kind ≠ .array := by
        rw [kind_setElement]
        exact harray
      simp only [JsObject.getElement, if_neg harray, if_neg hkind, hstored]
      have hread := ElementsStorage.getElem?_putAt_fill o.store.object.elements i j v
      by_cases hj : j = i
      · rw [if_pos hj] at hread ⊢
        exact congrArg _ ((present_present _).trans hread)
      · rw [if_neg hj] at hread ⊢
        exact congrArg _ (congrArg present hread)
  · obtain ⟨hsame, -⟩ := setElement_of_not_reaches v hreach
    rw [hsame, if_neg (fun h => hreach h.2)]

end ObjectState

/-! ## §2 Every key -/

namespace Store

theorem ownProperty_setElement (s : Store) (i : Nat) (v : JsValue) (key : PropKey) :
    (s.withObject (s.object.setElement i v)).ownProperty key = s.ownProperty key := by
  unfold JsObject.setElement
  split
  · rfl
  · split
    · rfl
    · split <;> rfl

theorem kind_spill (s : Store) : s.spill.object.kind = s.object.kind := by
  unfold spill Machine.convertToDictionary withObject
  cases s.object.dictionary <;> rfl

theorem kind_convertKeyToAccessor (s : Store) (key : PropKey) (attrs : Attrs)
    (getter setter : Option Nat) :
    (Machine.convertKeyToAccessor s.object s.numOwn key attrs getter setter).kind = s.object.kind :=
  kind_spill s

theorem kind_convertKeyToData (s : Store) (key : PropKey) (attrs : Attrs) (value : Option JsValue) :
    (Machine.convertKeyToData s.object s.numOwn key attrs value).kind = s.object.kind := kind_spill s

theorem kind_extend (s : Store) (key : PropKey) (v : JsValue) (attrs : Attrs) :
    (s.extend key v attrs).1.object.kind = s.object.kind := by
  unfold extend
  split
  · rfl
  · split
    · exact kind_spill s
    · split
      · rfl
      · rw [storeShapeExtension_eq]
        rfl

theorem kind_installNewAccessor (s : Store) (key : PropKey) (d : PartialDescriptor) :
    (s.installNewAccessor key d).1.object.kind = s.object.kind := by
  simp only [installNewAccessor]
  split
  · exact kind_convertKeyToAccessor s key _ _ _
  · split <;> rfl

theorem kind_wroteValue (s : Store) (d : PartialDescriptor) (slot : Nat) :
    (s.wroteValue d slot).object.kind = s.object.kind := by
  unfold wroteValue
  split <;> rfl

theorem kind_applyPropertyDescriptor (s : Store) (key : PropKey) (d : PartialDescriptor) :
    (applyPropertyDescriptor sameValue s key d).1.object.kind = s.object.kind := by
  simp only [applyPropertyDescriptor]
  split
  case h_1 e _ =>
    generalize validateRedefine sameValue e.attrs e.isAccessor _ e.getter e.setter d = ok
    cases ok with
    | false => rfl
    | true =>
      cases d.value with
      | none => rfl
      | some v => cases e.isAccessor || d.isAccessor <;> rfl
  case h_2 =>
    split
    case h_1 =>
      split
      · rfl
      · split
        · split <;> rfl
        · exact kind_convertKeyToData s key _ _
    case h_2 slot a _ =>
      split
      · rfl
      · split
        · exact kind_convertKeyToAccessor s key _ _ _
        · split
          · exact kind_wroteValue s d slot
          · split
            · exact kind_wroteValue s d slot
            · exact kind_wroteValue s d slot
    case h_3 =>
      split
      · rfl
      · split
        · exact kind_installNewAccessor s key d
        · exact kind_extend s key _ _

end Store

theorem definesRight_named {texts : KeyTexts} {o : ObjectState} {key : PropKey}
    {d : PartialDescriptor} (hkey : o.keyIndex texts key = none) :
    DefinesRight texts sameValue o key d ↔ Store.NamedRight sameValue o.store key d := by
  have hown (o' : ObjectState) (h : o'.keyIndex texts key = none) :
      o'.ownProperty texts key = o'.store.ownProperty key := by
    simp only [ObjectState.ownProperty, h]
  have hmoved : ({ o with
      store := (Store.applyPropertyDescriptor sameValue o.store key d).1 } : ObjectState).keyIndex
        texts key = none := by
    rw [← hkey]
    unfold ObjectState.keyIndex ObjectState.hasElements
    simp only [Store.kind_applyPropertyDescriptor]
  unfold DefinesRight Store.NamedRight ObjectState.applyPropertyDescriptor
  rw [hown o hkey, hkey]
  cases validateAndApply sameValue o.store.extensible (o.store.ownProperty key) d with
  | none =>
    simp only [Prod.mk.injEq]
    constructor
    · intro h
      exact Prod.ext (congrArg ObjectState.store h.1) h.2
    · intro h
      rw [h]
      exact ⟨rfl, rfl⟩
  | some p =>
    simp only
    rw [hown _ hmoved]

theorem storesElement {o : ObjectState} {texts : KeyTexts} {key : PropKey} {i : Nat}
    {d : PartialDescriptor} (hkey : o.keyIndex texts key = some i) (ho : o.Valid) (hd : d.Proper) :
    StoresElement o i d (o.applyPropertyDescriptor texts sameValue key d) := by
  unfold StoresElement ObjectState.applyPropertyDescriptor
  rw [hkey]
  cases hacc : d.isAccessor with
  | true => simp
  | false =>
    cases hv : d.value with
    | none =>
      simp only [Bool.false_eq_true, if_false]
      exact ⟨trivial, fun _ => trivial, fun _ => trivial⟩
    | some v =>
      simp only [Bool.false_eq_true, if_false]
      refine ⟨trivial, fun j => ?_, fun k => ?_⟩
      · have hread := ObjectState.shown_setElement (i := i) ho (hd.value v hv).1 (hd.value v hv).2 j
        have hshown (x : Option JsValue) :
            (x.map fun u => Property.ofData u ObjectState.elementAttrs).map Property.shown =
              (x.map shown).map fun u => Property.ofData u ObjectState.elementAttrs := by
          cases x <;> rfl
        have hafter : ((o.withElement i v).ownElement j).map Property.shown =
            ((present ((o.store.object.setElement i v).getElement j)).map shown).map
              fun u => Property.ofData u ObjectState.elementAttrs := hshown _
        have hbefore : (o.ownElement j).map Property.shown =
            ((present (o.store.object.getElement j)).map shown).map
              fun u => Property.ofData u ObjectState.elementAttrs := hshown _
        rw [hafter, hread, hbefore]
        split <;> rfl
      · exact Store.ownProperty_setElement o.store i v k

/-- **What a definition does**: elements of extensible objects are stored, and a
named key is defined as the algorithm specifies where nothing gets in the way. -/
theorem definesByDesign (texts : KeyTexts) (sameValue : JsValue → JsValue → Bool) (o : ObjectState)
    (key : PropKey) (d : PartialDescriptor) (ho : o.Valid) (hd : d.Proper) :
    DefinesByDesign texts sameValue o key d := by
  unfold DefinesByDesign
  cases hkey : o.keyIndex texts key with
  | some i => exact fun _ => storesElement hkey ho hd
  | none =>
    intro hfits
    rw [definesRight_named hkey]
    exact (Store.namedRight_iff ho.placed hd).mpr hfits

/-- `{ get x() { … } }`. -/
def getterOfX : ObjectState where
  store :=
    ⟨ShapeTree.runOps [.newRoot 0, .defineAccessor 0 (.string 1) (some 7) none .default],
      { (default : JsObject) with shape := 1 }, false, true⟩

theorem valid_getterOfX : getterOfX.Valid where
  placed := ⟨Store.edgesAddKeys_runOps _, by decide⟩
  elements := .flat (by decide) (fun _ h => nomatch h) (Nat.zero_le _)

/-- `[]`, whose key 1 is the text `0`. -/
def emptyArray : ObjectState where
  store := ⟨ShapeTree.runOps [.newRoot 0],
    { (default : JsObject) with kind := .array, shape := 0 }, false, true⟩

def zeroText : KeyTexts := fun key => if key = .string 1 then some (.latin1 [48#8]) else none

theorem valid_emptyArray : emptyArray.Valid where
  placed := ⟨Store.edgesAddKeys_runOps _, by decide⟩
  elements := .flat (by decide) (fun _ h => nomatch h) (Nat.zero_le _)

theorem namedFits_setter :
    getterOfX.store.NamedFits (· = ·) (.string 1) ⟨none, none, none, none, none, some (some 8)⟩ := by
  intro _
  refine ⟨rfl, fun h => absurd h (by decide), fun _ => ⟨rfl, rfl, ?_⟩⟩
  rw [if_neg (by decide)]
  exact ⟨rfl, rfl⟩

/-- `Object.defineProperty(o, "x", { set })`: the setter joins the getter. And
`Object.defineProperty([], "0", { writable: false })` does nothing. -/
theorem definesByDesign_setter :
    DefinesRight (fun _ => none) (· = ·) getterOfX (.string 1)
        ⟨none, none, none, none, none, some (some 8)⟩ ∧
      StoresElement emptyArray 0 ⟨none, some false, none, none, none, none⟩
        (emptyArray.applyPropertyDescriptor zeroText (· = ·) (.string 1)
          ⟨none, some false, none, none, none, none⟩) :=
  ⟨definesByDesign (fun _ => none) (· = ·) getterOfX (.string 1)
      ⟨none, none, none, none, none, some (some 8)⟩ valid_getterOfX
      ⟨.inl rfl, (fun _ h => nomatch h)⟩ namedFits_setter,
    definesByDesign zeroText (· = ·) emptyArray (.string 1)
      ⟨none, some false, none, none, none, none⟩ valid_emptyArray
      ⟨.inr rfl, (fun _ h => nomatch h)⟩ (.inr rfl)⟩

/-- `Object.defineProperty([], "0", { get })` is refused. -/
theorem not_definesRight_element :
    ¬ ∀ (texts : KeyTexts) (sameValue : JsValue → JsValue → Bool) (o : ObjectState) (key : PropKey)
      (d : PartialDescriptor), o.Valid → d.Proper → DefinesRight texts sameValue o key d := by
  intro hright
  have h := hright zeroText (· = ·) emptyArray (.string 1)
    ⟨none, none, none, none, some (some 7), none⟩ valid_emptyArray ⟨.inl rfl, fun _ h => nomatch h⟩
  exact absurd h.1 (by decide)

end V12.Named
