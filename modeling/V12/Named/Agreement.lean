/-
V12.Named.Agreement — runs of property operations of both object models on
one object, and when the two keep telling the same about it.

`Sound` is the invariant. A step that meets `Clean` keeps it (§2, one lemma
an operation), and a sound object that is not a realm's global reads the same
in both models (§3), through any surfaces and caches that fit it.
-/
import V12.Named.Rungs
import V12.Lib.Run

namespace V12.Named

open V12.Heap V12.Interp

/-! ## §1 The operations -/

/-- One operation on the object, of either model, or work on the shape space. -/
inductive Op where
  | setProperty (key : PropKey) (value : JsValue) (inherited : Inherited)
  | defineOwnDataAttrs (key : PropKey) (value : JsValue) (attrs : Attrs)
  | defineAccessorOwn (key : PropKey) (getter setter : Option Nat) (attrs : Attrs)
  | opDefineMethod (key : PropKey) (value : JsValue)
  | ordinaryDefineFromOwnDesc (key : PropKey) (d : PartialDescriptor)
  | deleteProperty (key : PropKey)
  | ordinarySet (key : PropKey) (value : JsValue) (inherited : Inherited)
  | ordinaryDefineOwnProperty (key : PropKey) (value : Option JsValue) (attrs : Attrs)
  | applyPropertyDescriptor (key : PropKey) (d : PartialDescriptor)
  | ordinaryDelete (key : PropKey)
  | preventExtensions
  | shapes (op : ShapeOp)

namespace Store

variable (sameValue : JsValue → JsValue → Bool)

def apply (s : Store) : Op → Store × Answer
  | .setProperty key value inherited => s.setProperty key value inherited
  | .defineOwnDataAttrs key value attrs => s.defineOwnDataAttrs key value attrs
  | .defineAccessorOwn key getter setter attrs => s.defineAccessorOwn key getter setter attrs
  | .opDefineMethod key value => s.opDefineMethod key value
  | .ordinaryDefineFromOwnDesc key d => s.ordinaryDefineFromOwnDesc key d
  | .deleteProperty key => s.deleteProperty key
  | .ordinarySet key value inherited => s.ordinarySet key value inherited
  | .ordinaryDefineOwnProperty key value attrs => s.ordinaryDefineOwnProperty key value attrs
  | .applyPropertyDescriptor key d => s.applyPropertyDescriptor sameValue key d
  | .ordinaryDelete key => s.ordinaryDelete key
  | .preventExtensions => ({ s with extensible := false }, .done)
  | .shapes op => ({ s with tree := s.tree.step op }, .done)

def step (s : Store) (op : Op) : Store := (s.apply sameValue op).1

/-- An entry and a record of one key that say the same. -/
def sameContents (e : DictEntry) : Descriptor → Bool
  | .data _ slot attrs => !e.isAccessor && e.slot == slot && e.attrs == attrs
  | .accessor _ getter setter attrs =>
    e.isAccessor && e.getter == getter && e.setter == setter && e.attrs == attrs

/-- **Both object models agree on every key**, and a `[[Set]]` of a key the
object describes does the same in both. -/
structure Agrees (rungs : Rungs) (s : Store) : Prop where
  keys : ∀ key, rungs.opIn s key = rungs.ordinaryHasProperty s key
  reads : ∀ key, rungs.getProperty s key = rungs.ordinaryGet s key
  properties : ∀ key, s.ordinaryOwnDescriptor key = s.ordinaryGetOwnProperty key
  writes : ∀ key value inherited, (s.record key).isSome ∨ (s.entry key).isSome →
    (s.setProperty key value inherited).1 = (s.ordinarySet key value inherited).1 ∧
      ((s.setProperty key value inherited).2 = .refused ↔
        (s.ordinarySet key value inherited).2 = .refused)
  once : ∀ key e d, s.entry key = some e → s.record key = some d → sameContents e d = true

def Room (s : Store) : Prop := s.numOwn ≤ s.size

/-- `extend` will push a cell for a slot of the shape. -/
def extendsByPush (s : Store) : Prop :=
  s.object.dictionary = none ∧ s.numOwn < namedDictThreshold ∧
    s.object.kind ≠ .array ∧ s.object.kind ≠ .arguments

/-- `ordinary_define_from_own_desc` will define an accessor. -/
def definesAccessor (s : Store) (key : PropKey) (d : PartialDescriptor) : Bool :=
  match s.ordinaryOwnDescriptor key with
  | some (.data value attrs) => !refusesOwnDesc (.data value attrs) d && d.isAccessor
  | some (.accessor getter setter attrs) => !refusesOwnDesc (.accessor getter setter attrs) d
  | none => s.extensible && d.isAccessor

/-- `apply_property_descriptor` will file the other kind of a key that the
shape describes. -/
def converts (s : Store) (key : PropKey) (d : PartialDescriptor) : Bool :=
  (s.entry key).isNone &&
    match s.record key with
    | some (.accessor _ getter setter attrs) =>
      validateRedefine sameValue attrs true .undefined getter setter d && !d.isAccessor
    | some (.data _ slot attrs) =>
      validateRedefine sameValue attrs false ((s.cell slot).getD .undefined) none none d &&
        d.isAccessor
    | none => false

/-- **The condition on a step**: a key of the dictionary is not defined on the
shape, a key of the shape does not change its kind in the engine, and a slot
that is handed out is one of the cells or the next. -/
def Clean (s : Store) (op : Op) : Prop :=
  s.realmGlobal = false ∧
    match op with
    | .setProperty key .. => s.record key = none → s.object.dictionary = none → s.Room
    | .ordinarySet key .. | .ordinaryDefineOwnProperty key .. =>
      s.record key = none → s.extendsByPush → s.Room
    | .defineOwnDataAttrs key _ attrs =>
      -- an accessor of the shape with a successor for the attributes
      s.entry key = none → s.layout key = some none →
        s.numOwn < s.size ∨
          ∀ p, s.tree.get? s.object.shape = some p → p.transitions.get key attrs = none
    | .defineAccessorOwn key .. => s.entry key = none
    | .opDefineMethod key _ => s.record key = none → s.entry key = none ∧ s.Room
    | .ordinaryDefineFromOwnDesc key d => s.definesAccessor key d = true → s.entry key = none
    | .applyPropertyDescriptor key d =>
      s.converts sameValue key d = false ∧
        (d.isAccessor = false → s.record key = none → s.extendsByPush → s.Room)
    | .deleteProperty _ | .ordinaryDelete _ | .preventExtensions | .shapes _ => True

/-! ## §2 A clean step keeps the invariant -/

variable {sameValue}
variable {s : Store} {r : ShapeTree × Nat} {key k : PropKey} {attrs : Attrs} {i : Nat} {v : JsValue}

theorem Sound.call {s' : Store} (h : Sound s) (hx : ShapeTree.Extends s.tree s.object.shape key r)
    (htree : s'.tree = r.1.bind r.2) (hshape : s'.object.shape = r.2)
    (hdict : s'.object.dictionary = s.object.dictionary) (hsize : s.size ≤ s'.size)
    (hkey : s.entry key = none)
    (hnew : (s.layout key).join = none → r.1.layout r.2 key = some (some s.numOwn) →
      s.numOwn < s'.size) : Sound s' := by
  refine h.bind hx htree hshape hdict hsize hkey fun n hn => ?_
  have hold : r.1.layout s.object.shape key = s.layout key := hx.keeps.layout h.valid key
  have hcount : r.1.numOwn s.object.shape = s.numOwn := hx.keeps.numOwn h.valid
  rcases hx.adds.self with hself | ⟨hjoin, hself⟩ | ⟨-, hself⟩
  · rw [hself] at hn
    cases hn
  · rw [hcount] at hself
    rw [hold] at hjoin
    have hn' : n = s.numOwn := by
      rw [hself, Option.some.injEq, Option.some.injEq] at hn
      exact hn.symm
    exact hn' ▸ hnew hjoin hself
  · rw [hself, hold] at hn
    exact Nat.lt_of_lt_of_le (h.shapeSlots key n hn) hsize

theorem numOwn_fresh (h : Sound s) (hx : ShapeTree.Extends s.tree s.object.shape key r)
    (hkey : s.layout key = none) :
    r.1.numOwn r.2 = s.numOwn + 1 := by
  have hold : r.1.layout s.object.shape key = none := (hx.keeps.layout h.valid key).trans hkey
  rw [hx.adds.fresh hold, hx.keeps.numOwn h.valid]
  rfl

theorem sound_bind_push (h : Sound s) (hx : ShapeTree.Extends s.tree s.object.shape key r)
    (hkey : s.entry key = none) (hroom : s.Room) (v : JsValue) :
    Sound ((s.bindShape r).pushCell v) := by
  refine h.call hx rfl rfl rfl (by simp) hkey fun _ _ => ?_
  rw [size_pushCell, size_bindShape]
  exact Nat.lt_succ_of_le hroom

theorem sound_bind_known (h : Sound s) (hx : ShapeTree.Extends s.tree s.object.shape key r)
    {n : Nat} (hkey : s.layout key = some (some n)) : Sound (s.bindShape r) := by
  have hentry : s.entry key = none := by
    cases he : s.entry key with
    | none => rfl
    | some e =>
      have hnone := h.separate key e he
      rw [hkey] at hnone
      cases hnone
  refine h.call hx rfl rfl rfl (Nat.le_refl _) hentry fun hjoin _ => ?_
  rw [hkey] at hjoin
  cases hjoin

theorem layout_of_data {slot : Nat} (h : s.record key = some (.data k slot attrs)) :
    s.layout key = some (some slot) := by
  rw [layout_eq, h]
  rfl

theorem layout_of_accessor {getter setter : Option Nat}
    (h : s.record key = some (.accessor k getter setter attrs)) :
    s.layout key = some none := by
  rw [layout_eq, h]
  rfl

theorem Sound.entry_none (h : Sound s) {d : Descriptor} (hd : s.record key = some d) :
    s.entry key = none := by
  cases he : s.entry key with
  | none => rfl
  | some e =>
    have hnone := layout_eq_none.mp (h.separate key e he)
    rw [hd] at hnone
    cases hnone

theorem entry_none_of_dictionary (h : s.object.dictionary = none) (key : PropKey) :
    s.entry key = none := by
  rw [entry_eq, h]
  rfl

theorem sound_insertEntry (h : Sound s) (hdict : s.object.dictionary.isSome = true)
    (hkey : s.layout key = none) (v : JsValue) (attrs : Attrs) :
    Sound (s.insertEntry key v attrs) :=
  sound_fileEntry h hdict hkey v attrs none none false

theorem sound_addKey (h : Sound s) (hglobal : s.realmGlobal = false) (hkey : s.record key = none)
    (hroom : s.object.dictionary = none → s.Room) (v : JsValue) :
    Sound (s.addKey key v).1 := by
  unfold addKey
  split
  case isTrue hdict => exact sound_insertEntry h hdict (layout_eq_none.mpr hkey) v .default
  case isFalse hdict =>
    have hnone : s.object.dictionary = none := by simpa using hdict
    split
    · exact h
    case _ r hr =>
      simp only [hglobal, Bool.false_eq_true, if_false]
      exact sound_bind_push h (ShapeTree.extends_addProperty h.edges hr)
        (entry_none_of_dictionary hnone key) (hroom hnone) v

theorem sound_setProperty (h : Sound s) (hglobal : s.realmGlobal = false)
    (hroom : s.record key = none → s.object.dictionary = none → s.Room) (v : JsValue)
    (inherited : Inherited) : Sound (s.setProperty key v inherited).1 := by
  have hsetter (f : Option Nat) : Sound (s.callSetter f).1 := by
    cases f <;> exact h
  unfold setProperty
  split
  · split
    · exact sound_writeCell h _ v
    · exact h
  · exact hsetter _
  case h_3 hrecord =>
    split
    · split
      · exact hsetter _
      · split
        · exact sound_writeCell h _ v
        · exact h
    · have hadd : Sound (if s.extensible then s.addKey key v else (s, .refused)).1 := by
        split
        · exact sound_addKey h hglobal hrecord (hroom hrecord) v
        · exact h
      split
      · exact h
      · exact hsetter _
      · exact h
      · exact hadd
      · exact hadd

theorem sound_defineAccessorOwn (h : Sound s) (hkey : s.entry key = none)
    (getter setter : Option Nat) (attrs : Attrs) :
    Sound (s.defineAccessorOwn key getter setter attrs).1 := by
  unfold defineAccessorOwn
  split
  · exact h
  case _ r hr =>
    have hx := ShapeTree.extends_defineAccessor h.edges hr
    refine h.call hx rfl rfl rfl (by rw [size_reserve]; exact Nat.le_max_left _ _) hkey
      fun hjoin hself => ?_
    rcases ShapeTree.layout_defineAccessor hr with hnone | hsame
    · rw [hnone] at hself
      cases hself
    · rw [hself] at hsame
      rw [show s.layout key = some (some s.numOwn) from hsame.symm] at hjoin
      cases hjoin

theorem sound_defineOwnDataAttrs (h : Sound s)
    (hclean : s.entry key = none → s.layout key = some none →
      s.numOwn < s.size ∨
        ∀ p, s.tree.get? s.object.shape = some p → p.transitions.get key attrs = none)
    (v : JsValue) : Sound (s.defineOwnDataAttrs key v attrs).1 := by
  unfold defineOwnDataAttrs
  cases hentry : s.entry key with
  | some e =>
    simp only
    split
    · exact h
    · exact sound_updateEntry (f := fun e => { e with attrs := attrs })
        (sound_growCell h e.slot v .hole) key fun _ => rfl
  | none =>
    simp only
    split
    case isTrue hdict =>
      obtain ⟨hdict, hrecord⟩ := Bool.and_eq_true_iff.mp hdict
      exact sound_insertEntry h hdict (layout_eq_none.mpr (by simpa using hrecord)) v attrs
    case isFalse =>
      split
      case h_1 k slot current hrecord =>
        have hgrown := sound_growCell h slot v .hole
        split
        · exact hgrown
        case _ r hr =>
          exact sound_bind_known hgrown (ShapeTree.extends_updateDataAttrs hgrown.edges hr)
            (layout_of_data hrecord)
      case h_2 k getter setter current hrecord =>
        have hkey := layout_of_accessor hrecord
        split
        · exact h
        case _ r hr =>
          have hx := ShapeTree.extends_addProperty h.edges hr
          refine h.call hx rfl rfl rfl (size_le_growCell_bindShape ..) hentry fun _ hself => ?_
          rcases hclean hentry hkey with hlt | hedge
          · rw [size_growCell]
            exact Nat.lt_of_lt_of_le hlt (Nat.le_max_left _ _)
          · have hknown := ShapeTree.layout_addProperty_known hr hedge
              (by rw [show s.tree.layout s.object.shape key = some none from hkey]; simp)
            rw [hself] at hknown
            rw [show s.layout key = some (some s.numOwn) from hknown.symm] at hkey
            cases hkey
      case h_3 hrecord =>
        split
        · exact h
        case _ r hr =>
          have hx := ShapeTree.extends_addProperty h.edges hr
          refine h.call hx rfl rfl rfl (size_le_growCell_bindShape ..) hentry fun _ _ => ?_
          rw [size_growCell, numOwn_fresh h hx (layout_eq_none.mpr hrecord)]
          omega

theorem sound_opDefineMethod (h : Sound s)
    (hnew : s.record key = none → s.entry key = none ∧ s.Room) (v : JsValue) :
    Sound (s.opDefineMethod key v).1 := by
  unfold opDefineMethod
  split
  case h_1 k slot attrs hrecord =>
    have hgrown := sound_growCell h (s.slotIndex slot) v .hole
    split
    · exact hgrown
    · dsimp only
      split
      · exact hgrown
      case _ r hr =>
        exact sound_bind_known hgrown (ShapeTree.extends_updateDataAttrs hgrown.edges hr)
          (layout_of_data hrecord)
  case h_2 => exact h
  case h_3 hrecord =>
    obtain ⟨hentry, hroom⟩ := hnew hrecord
    split
    · exact h
    case _ r hr => exact sound_bind_push h (ShapeTree.extends_addProperty h.edges hr) hentry hroom v

theorem sound_ordinaryDefineFromOwnDesc (h : Sound s) {d : PartialDescriptor}
    (hclean : s.definesAccessor key d = true → s.entry key = none) :
    Sound (s.ordinaryDefineFromOwnDesc key d).1 := by
  -- an accessor of the shape is what the model reports for a key without an entry
  have hdata {attrs : Attrs}
      (hnot : ∀ g f a, s.ordinaryOwnDescriptor key ≠ some (.accessor g f a)) :
      s.entry key = none → s.layout key = some none →
        s.numOwn < s.size ∨
          ∀ p, s.tree.get? s.object.shape = some p → p.transitions.get key attrs = none := by
    intro hentry hlayout
    rw [layout_eq] at hlayout
    obtain ⟨rec, hrecord, hslot⟩ := Option.map_eq_some_iff.mp hlayout
    cases rec with
    | data k slot a => simp [Descriptor.slot] at hslot
    | accessor k g f a => exact absurd (by simp [ordinaryOwnDescriptor, hentry, hrecord]) (hnot g f a)
  unfold ordinaryDefineFromOwnDesc
  cases hown : s.ordinaryOwnDescriptor key with
  | some current =>
    simp only
    split
    case isTrue => exact h
    case isFalse hrefuse =>
      split
      case h_1 _ _ hacc =>
        refine sound_defineAccessorOwn h (hclean ?_) _ _ _
        unfold definesAccessor
        rw [hown]
        split <;> simp_all
      case h_2 g f a hacc _ =>
        refine sound_defineAccessorOwn h (hclean ?_) _ _ _
        simp [definesAccessor, hown, hrefuse]
      case h_3 value a hacc _ =>
        split
        · exact sound_defineOwnDataAttrs h (hdata (by simp [hown])) _
        · exact h
  | none =>
    simp only
    split
    case isTrue => exact h
    case isFalse hext =>
      split
      case isTrue hacc =>
        refine sound_defineAccessorOwn h (hclean ?_) _ _ _
        simpa [definesAccessor, hown, hacc] using hext
      case isFalse =>
        split
        · exact sound_defineOwnDataAttrs h (hdata (by simp [hown])) _
        · exact h

theorem layout_bindShape (hvalid : r.2 < r.1.shapes.length) (key : PropKey) :
    (s.bindShape r).layout key = r.1.layout r.2 key :=
  (ShapeTree.keepsLayout_bind r.1 r.2).layout hvalid key

theorem numOwn_bindShape (hvalid : r.2 < r.1.shapes.length) :
    (s.bindShape r).numOwn = r.1.numOwn r.2 :=
  (ShapeTree.keepsLayout_bind r.1 r.2).numOwn hvalid

theorem sound_deleteProperty (h : Sound s) (hglobal : s.realmGlobal = false) (key : PropKey) :
    Sound (s.deleteProperty key).1 := by
  unfold deleteProperty
  split
  · split
    · exact sound_setCell (sound_removeEntry h key) _ _
    · exact h
  case h_2 hentry =>
    split
    · exact h
    · split
      case isFalse => exact h
      case isTrue =>
        split
        · exact sound_writeCell h _ _
        · split
          · exact h
          case _ r hr =>
            have hx := ShapeTree.extends_updateDataAttrs h.edges hr
            split
            case h_2 => exact h
            case h_1 k slot attrs hrecord =>
              -- the slot that is grown is the slot of the record
              refine h.call hx rfl rfl rfl (size_le_growCell_bindShape ..) hentry fun _ hself => ?_
              have hslot := layout_of_data hrecord
              rw [layout_bindShape hx.valid, hself, Option.some.injEq, Option.some.injEq] at hslot
              simp only [slotIndex, hglobal, Bool.false_eq_true, if_false, size_growCell]
              omega

theorem sound_storeShapeExtension (h : Sound s) (hx : ShapeTree.Extends s.tree s.object.shape key r)
    (hkey : s.layout key = none) (hentry : s.entry key = none)
    (hroom : s.object.kind ≠ .array → s.object.kind ≠ .arguments → s.Room) (v : JsValue) :
    Sound ((s.bindShape r).storeShapeExtension v) := by
  have hgrown : Sound ((s.bindShape r).growCell ((s.bindShape r).numOwn - 1) v .hole) := by
    refine h.call hx rfl rfl rfl (size_le_growCell_bindShape ..) hentry fun _ _ => ?_
    rw [size_growCell, numOwn_bindShape hx.valid, numOwn_fresh h hx hkey]
    omega
  unfold storeShapeExtension
  split
  · exact hgrown
  · exact hgrown
  case h_3 harray hargs => exact sound_bind_push h hx hentry (hroom harray hargs) v

theorem sound_extend (h : Sound s) (hkey : s.record key = none) (hroom : s.extendsByPush → s.Room)
    (v : JsValue) (attrs : Attrs) :
    Sound (s.extend key v attrs).1 := by
  have hlayout := layout_eq_none.mpr hkey
  unfold extend
  split
  case isTrue hdict => exact sound_insertEntry h hdict hlayout v attrs
  case isFalse hdict =>
    have hnone : s.object.dictionary = none := by simpa using hdict
    split
    case isTrue => exact sound_insertEntry (sound_spill h) (dictionary_spill s) (layout_spill s key ▸ hlayout) v attrs
    case isFalse hlt =>
      split
      · exact h
      case _ r hr =>
        exact sound_storeShapeExtension h (ShapeTree.extends_addProperty h.edges hr) hlayout
          (entry_none_of_dictionary hnone key)
          (fun harray hargs => hroom ⟨hnone, Nat.lt_of_not_le hlt, harray, hargs⟩) v

theorem sound_ordinarySet (h : Sound s) (hroom : s.record key = none → s.extendsByPush → s.Room)
    (v : JsValue) (inherited : Inherited) : Sound (s.ordinarySet key v inherited).1 := by
  unfold ordinarySet
  split
  · split
    · exact h
    · split
      · exact sound_growCell h _ v .hole
      · exact h
  case h_2 hentry =>
    split
    · split
      · exact sound_writeCell h _ v
      · exact h
    · exact h
    case h_3 hrecord =>
      have hadd : Sound (if s.extensible then s.extend key v .default else (s, .refused)).1 := by
        split
        · exact sound_extend h hrecord (hroom hrecord) v .default
        · exact h
      split
      · exact h
      · exact h
      · exact h
      all_goals exact hadd

theorem sound_written (h : Sound s) (value : Option JsValue) (slot : Nat) :
    Sound (match value with
      | some v => s.growCell slot v .hole
      | none => s) := by
  cases value with
  | none => exact h
  | some v => exact sound_growCell h slot v .hole

theorem sound_ordinaryDefineOwnProperty (h : Sound s)
    (hroom : s.record key = none → s.extendsByPush → s.Room) (value : Option JsValue)
    (attrs : Attrs) : Sound (s.ordinaryDefineOwnProperty key value attrs).1 := by
  have hwritten := sound_written h value
  unfold ordinaryDefineOwnProperty
  split
  case h_1 e hentry =>
    split
    · exact h
    · split
      · exact h
      · exact sound_updateEntry (f := fun e => { e with attrs := attrs }) (hwritten e.slot) key
          fun _ => rfl
  case h_2 hentry =>
    split
    case h_1 k slot current hrecord =>
      split
      · exact h
      · have hs' := hwritten slot
        dsimp only
        split
        · exact hs'
        · split
          · exact hs'
          case _ r hr =>
            refine sound_bind_known hs' (ShapeTree.extends_updateDataAttrs hs'.edges hr) (n := slot) ?_
            cases value <;> exact layout_of_data hrecord
    · exact h
    case h_3 hrecord =>
      split
      · exact sound_extend h hrecord (hroom hrecord) _ attrs
      · exact h

theorem sound_ordinaryDelete (h : Sound s) (key : PropKey) :
    Sound (s.ordinaryDelete key).1 := by
  unfold ordinaryDelete
  split
  · split
    · exact sound_setCell (sound_removeEntry h key) _ _
    · exact h
  · split
    · exact h
    · split
      · split
        · exact sound_writeCell h _ _
        · exact h
      · exact h

theorem sound_installNewAccessor (h : Sound s) (hkey : s.record key = none)
    (d : PartialDescriptor) :
    Sound (s.installNewAccessor key d).1 := by
  have hlayout := layout_eq_none.mpr hkey
  unfold installNewAccessor
  dsimp only
  split
  case isTrue =>
    exact sound_fileEntry (sound_spill h) (dictionary_spill s) (layout_spill s key ▸ hlayout)
      _ _ _ _ true
  case isFalse hshape =>
    have hnone : s.object.dictionary = none := by simp at hshape; exact hshape.1
    exact sound_defineAccessorOwn h (entry_none_of_dictionary hnone key) _ _ _

theorem slot_appliedEntry (d : PartialDescriptor) (e : DictEntry) :
    (appliedEntry d e).slot = e.slot := by
  unfold appliedEntry
  dsimp only
  split
  · split <;> rfl
  · split <;> rfl

theorem sound_applyPropertyDescriptor (h : Sound s) {d : PartialDescriptor}
    (hkind : s.converts sameValue key d = false)
    (hroom : d.isAccessor = false → s.record key = none → s.extendsByPush → s.Room) :
    Sound (s.applyPropertyDescriptor sameValue key d).1 := by
  unfold applyPropertyDescriptor
  split
  case h_1 e hentry =>
    dsimp only
    generalize (if e.isAccessor = true then JsValue.undefined else _) = value
    split
    · exact h
    · refine sound_updateEntry ?_ key (slot_appliedEntry d)
      split
      · split
        · exact h
        · exact sound_growCell h _ _ .hole
      · exact h
  case h_2 hentry =>
    split
    case h_1 k getter setter attrs hrecord =>
      split
      case isTrue => exact h
      case isFalse hvalid =>
        have hacc : d.isAccessor = true := by
          simpa [converts, hentry, hrecord, show validateRedefine sameValue attrs true .undefined
            getter setter d = true by simpa using hvalid] using hkind
        rw [if_pos hacc]
        split
        · exact h
        case _ r hr =>
          refine h.call (ShapeTree.extends_defineAccessor h.edges hr) rfl rfl rfl (Nat.le_refl _)
            hentry fun _ hself => ?_
          have hkey : s.tree.layout s.object.shape key = some none := layout_of_accessor hrecord
          rcases ShapeTree.layout_defineAccessor hr with hnone | hsame
          · rw [hnone] at hself
            cases hself
          · rw [hsame, hkey] at hself
            cases hself
    case h_2 k slot attrs hrecord =>
      split
      case isTrue => exact h
      case isFalse hvalid =>
        have hacc : d.isAccessor = false := by
          simpa [converts, hentry, hrecord, show validateRedefine sameValue attrs false
            ((s.cell slot).getD .undefined) none none d = true by simpa using hvalid] using hkind
        rw [if_neg (by simp [hacc])]
        have hs' := sound_written h d.value slot
        dsimp only
        split
        · exact hs'
        · split
          · exact hs'
          case _ r hr =>
            refine sound_bind_known hs' (ShapeTree.extends_updateDataAttrs hs'.edges hr) (n := slot) ?_
            cases d.value <;> exact layout_of_data hrecord
    case h_3 hrecord =>
      split
      · exact h
      · split
        case isTrue => exact sound_installNewAccessor h hrecord d
        case isFalse hdata =>
          exact sound_extend h hrecord (hroom (by simpa using hdata) hrecord) _ _

/-- **A clean step keeps the invariant.** -/
theorem sound_step (h : Sound s) {op : Op} (hclean : s.Clean sameValue op) :
    Sound (s.step sameValue op) := by
  obtain ⟨hglobal, hclean⟩ := hclean
  cases op with
  | setProperty key v inherited => exact sound_setProperty h hglobal hclean v inherited
  | defineOwnDataAttrs key v attrs => exact sound_defineOwnDataAttrs h hclean v
  | defineAccessorOwn key g f attrs => exact sound_defineAccessorOwn h hclean g f attrs
  | opDefineMethod key v => exact sound_opDefineMethod h hclean v
  | ordinaryDefineFromOwnDesc key d => exact sound_ordinaryDefineFromOwnDesc h hclean
  | deleteProperty key => exact sound_deleteProperty h hglobal key
  | ordinarySet key v inherited => exact sound_ordinarySet h hclean v inherited
  | ordinaryDefineOwnProperty key v attrs => exact sound_ordinaryDefineOwnProperty h hclean v attrs
  | applyPropertyDescriptor key d => exact sound_applyPropertyDescriptor h hclean.1 hclean.2
  | ordinaryDelete key => exact sound_ordinaryDelete h key
  | preventExtensions => exact h.cells rfl rfl rfl (Nat.le_refl _)
  | shapes op => exact h.shapes op

/-! ## §3 A sound object reads the same in both models -/

theorem slotIndex_eq (hglobal : s.realmGlobal = false) (slot : Nat) :
    s.slotIndex slot = slot := by
  simp [slotIndex, hglobal]

theorem cell_of_lt (hi : i < s.size) : ∃ v, s.cell i = some v :=
  ⟨_, List.getElem?_eq_getElem hi⟩

theorem liveCell_eq (hv : s.cell i = some v) :
    s.liveCell i = if v.isHole then none else some v := by
  rw [liveCell, hv]
  cases h : v.isHole <;> simp [Option.filter, h]

theorem holed_eq (hglobal : s.realmGlobal = false) (hv : s.cell i = some v) :
    s.holed i = v.isHole := by
  rw [holed, slotIndex_eq hglobal, hv]
  rfl

theorem readSlot_eq (hglobal : s.realmGlobal = false) (hv : s.cell i = some v) :
    s.readSlot i = .value v := by
  rw [readSlot, slotIndex_eq hglobal, hv]

theorem reported_eq (hv : s.cell i = some v) :
    s.reported i = s.liveCell i := by
  rw [reported, liveCell, hv]
  rfl

theorem Sound.shapeCell (h : Sound s) {slot : Nat}
    (hrecord : s.record key = some (.data k slot attrs)) : ∃ v, s.cell slot = some v :=
  cell_of_lt (h.shapeSlots key slot (layout_of_data hrecord))

theorem Sound.dictCell (h : Sound s) {e : DictEntry} (hentry : s.entry key = some e) :
    ∃ v, s.cell e.slot = some v :=
  cell_of_lt (h.dictSlots key e hentry)

theorem opIn_eq (h : Sound s) (hglobal : s.realmGlobal = false) (key : PropKey) :
    s.opIn key = s.ordinaryHasProperty key := by
  unfold opIn ordinaryHasProperty
  split
  case h_1 e hentry =>
    obtain ⟨v, hv⟩ := h.dictCell hentry
    rw [liveCell_eq hv, hv]
    cases hhole : v.isHole <;> simp [hhole]
  case h_2 =>
    split
    case h_1 k slot attrs hrecord =>
      obtain ⟨v, hv⟩ := h.shapeCell hrecord
      rw [holed_eq hglobal hv, liveCell_eq hv]
      cases hhole : v.isHole <;> simp
    · rfl
    · rfl

theorem ordinaryOwnDescriptor_eq (h : Sound s) (key : PropKey) :
    s.ordinaryOwnDescriptor key = s.ordinaryGetOwnProperty key := by
  unfold ordinaryOwnDescriptor ordinaryGetOwnProperty
  split
  case h_1 e hentry =>
    obtain ⟨v, hv⟩ := h.dictCell hentry
    rw [reported_eq hv]
  case h_2 =>
    split
    case h_1 k slot attrs hrecord =>
      obtain ⟨v, hv⟩ := h.shapeCell hrecord
      rw [reported_eq hv]
    · rfl
    · rfl

theorem icOwn_eq (h : Sound s) (hglobal : s.realmGlobal = false) (key : PropKey) :
    s.icOwn key = s.ordinaryGet key := by
  unfold icOwn ordinaryGet
  cases hentry : s.entry key with
  | some e =>
    -- the shape level does not have the key
    have hrecord := layout_eq_none.mp (h.separate key e hentry)
    obtain ⟨v, hv⟩ := h.dictCell hentry
    simp only [hrecord, holed_eq hglobal hv, readSlot_eq hglobal hv, liveCell_eq hv]
    cases hhole : v.isHole <;> simp
  | none =>
    cases hrecord : s.record key with
    | none => rfl
    | some d =>
      cases d with
      | accessor k getter setter attrs => rfl
      | data k slot attrs =>
        obtain ⟨v, hv⟩ := h.shapeCell hrecord
        simp only [holed_eq hglobal hv, readSlot_eq hglobal hv, liveCell_eq hv]
        cases hhole : v.isHole <;> simp

/-! ### Through the rungs -/

theorem ordinaryGet_kept (hkept : s.KeptAt key i)
    (hlive : s.liveCell i = some v) :
    s.ordinaryGet key = some (.value v) ∧ s.ordinaryHasProperty key = true := by
  unfold KeptAt at hkept
  unfold ordinaryGet ordinaryHasProperty
  cases hentry : s.entry key with
  | some e =>
    rw [hentry] at hkept
    obtain ⟨hdata, rfl⟩ := hkept
    simp [hdata, hlive]
  | none =>
    rw [hentry] at hkept
    dsimp only at hkept
    rw [layout_eq] at hkept
    cases hrecord : s.record key with
    | none => simp [hrecord] at hkept
    | some d =>
      rw [hrecord] at hkept
      cases d with
      | accessor k getter setter attrs => cases hkept
      | data k slot attrs =>
        cases hkept
        simp [hlive]

theorem Sound.ordinaryGet_lacks (h : Sound s) (hlacks : s.Lacks key) :
    s.ordinaryGet key = none ∧ s.ordinaryHasProperty key = false := by
  unfold ordinaryGet ordinaryHasProperty
  cases hentry : s.entry key with
  | some e =>
    obtain ⟨hdata, hdead⟩ := hlacks.entry e hentry
    simp [layout_eq_none.mp (h.separate key e hentry), hdata, hdead]
  | none =>
    cases hrecord : s.record key with
    | none => simp
    | some d =>
      have hlayout : s.layout key = some d.slot := by rw [layout_eq, hrecord]; rfl
      cases d with
      | accessor k getter setter attrs => exact absurd hlayout hlacks.shape
      | data k slot attrs => simp [hlacks.cell slot hlayout]

/-- A cache of rungs that fit answers what the object and its prototypes have. -/
theorem stub_of_fit {rungs : Rungs} (hfit : rungs.Fit s) (h : Sound s)
    (hglobal : s.realmGlobal = false) (key : PropKey) :
    (∀ v, rungs.biasedStub s key = some v ∨ rungs.siteCell s key = some v ∨
        rungs.plainStub s key = some v →
      (s.ordinaryGet key).or (rungs.chain key) = some (.value v) ∧
        (s.ordinaryHasProperty key || (rungs.chain key).isSome) = true) := by
  have hkept {slot : Nat} {v : JsValue} (hk : s.KeptAt key slot) (hlive : s.liveCell slot = some v) :
      (s.ordinaryGet key).or (rungs.chain key) = some (.value v) ∧
        (s.ordinaryHasProperty key || (rungs.chain key).isSome) = true := by
    obtain ⟨hget, hhas⟩ := ordinaryGet_kept hk hlive
    simp [hget, hhas]
  have hheld {v : JsValue} (hh : s.Lacks key ∧ rungs.chain key = some (.value v)) :
      (s.ordinaryGet key).or (rungs.chain key) = some (.value v) ∧
        (s.ordinaryHasProperty key || (rungs.chain key).isSome) = true := by
    obtain ⟨hget, hhas⟩ := h.ordinaryGet_lacks hh.1
    simp [hget, hhas, hh.2]
  rintro v (hstub | hsite | hstub)
  · unfold Rungs.biasedStub at hstub
    split at hstub
    case h_1 slot hslot =>
      rw [slotIndex_eq hglobal] at hstub
      exact hkept (hfit.own key slot v hslot hstub) hstub
    case h_2 biased plain hslot => exact hheld (hfit.biased key v plain (hstub ▸ hslot))
    case h_3 => cases hstub
  · obtain ⟨slot, hslot, hcell⟩ := Option.bind_eq_some_iff.mp hsite
    rw [slotIndex_eq hglobal] at hcell
    exact hkept (hfit.site key slot v hslot hcell) hcell
  · unfold Rungs.plainStub at hstub
    split at hstub
    case h_1 slot hslot => exact hkept (hfit.own key slot v hslot hstub) hstub
    case h_2 biased plain hslot => exact hheld (hfit.plain key biased v (hstub ▸ hslot))
    case h_3 => cases hstub

variable {rungs : Rungs}

theorem ordinaryGet_of_fit (hfit : rungs.Fit s) (h : Sound s) (hglobal : s.realmGlobal = false)
    (key : PropKey) : rungs.ordinaryGet s key = (s.ordinaryGet key).or (rungs.chain key) := by
  unfold Rungs.ordinaryGet
  cases hstub : rungs.plainStub s key with
  | none => rfl
  | some v => exact (stub_of_fit hfit h hglobal key v (.inr (.inr hstub))).1.symm

theorem icLookup_of_fit (hfit : rungs.Fit s) (h : Sound s) (hglobal : s.realmGlobal = false)
    (key : PropKey) : rungs.icLookup s key = (s.ordinaryGet key).or (rungs.chain key) := by
  unfold Rungs.icLookup
  rw [icOwn_eq h hglobal]
  cases hstub : rungs.biasedStub s key with
  | some v => exact (stub_of_fit hfit h hglobal key v (.inl hstub)).1.symm
  | none =>
    cases hsite : rungs.siteCell s key with
    | some v => exact (stub_of_fit hfit h hglobal key v (.inr (.inl hsite))).1.symm
    | none => rfl

theorem opIn_of_fit (hfit : rungs.Fit s) (h : Sound s) (hglobal : s.realmGlobal = false)
    (key : PropKey) : rungs.opIn s key = rungs.ordinaryHasProperty s key := by
  unfold Rungs.opIn Rungs.ordinaryHasProperty
  rw [opIn_eq h hglobal]
  cases hstub : rungs.plainStub s key with
  | none => rfl
  | some v => exact (stub_of_fit hfit h hglobal key v (.inr (.inr hstub))).2

/-- Where a surface answers, the object has no property and the chain is what the engine finds. -/
theorem getProperty_of_fit (hfit : rungs.Fit s) (hinstalled : rungs.Installed) (h : Sound s)
    (hglobal : s.realmGlobal = false) (key : PropKey) :
    rungs.getProperty s key = rungs.ordinaryGet s key := by
  unfold Rungs.getProperty
  rw [icLookup_of_fit hfit h hglobal, ordinaryGet_of_fit hfit h hglobal]
  cases hsurface : rungs.surface key with
  | none => rfl
  | some r =>
    rw [(h.ordinaryGet_lacks (hfit.surface key r hsurface)).1, hinstalled key r hsurface]
    rfl

theorem writeCell_of_lt (hi : i < s.size) (v : JsValue) :
    s.writeCell i v = (s.setCell i v, .done) := if_pos hi

theorem growCell_of_lt (hi : i < s.size) (v fill : JsValue) :
    s.growCell i v fill = s.setCell i v := by
  have hsame : resized s.object.properties (i + 1) fill = s.object.properties := by
    rw [resized, show i + 1 - s.object.properties.length = 0 from Nat.sub_eq_zero_of_le hi]
    simp
  rw [growCell, hsame, setCell]

theorem writes_eq (h : Sound s) (hglobal : s.realmGlobal = false)
    (hknown : (s.record key).isSome ∨ (s.entry key).isSome) (v : JsValue) (inherited : Inherited) :
    (s.setProperty key v inherited).1 = (s.ordinarySet key v inherited).1 ∧
      ((s.setProperty key v inherited).2 = .refused ↔
        (s.ordinarySet key v inherited).2 = .refused) := by
  have hsetter (f : Option Nat) : (s.callSetter f).1 = s ∧
      ((s.callSetter f).2 = .refused ↔ (if f.isSome then Answer.done else .refused) = .refused) := by
    cases f <;> simp [callSetter]
  unfold setProperty ordinarySet
  cases hrecord : s.record key with
  | some d =>
    simp only [h.entry_none hrecord]
    cases d with
    | data k slot attrs =>
      simp [slotIndex_eq hglobal]
    | accessor k getter setter attrs => exact hsetter setter
  | none =>
    cases hentry : s.entry key with
    | none => simp [hrecord, hentry] at hknown
    | some e =>
      have hslot := h.dictSlots key e hentry
      simp only [slotIndex_eq hglobal, writeCell_of_lt hslot, growCell_of_lt hslot]
      split
      · exact hsetter e.setter
      · exact ⟨rfl, Iff.rfl⟩

theorem agrees_of_sound (h : Sound s) (hglobal : s.realmGlobal = false) (hfit : rungs.Fit s)
    (hinstalled : rungs.Installed) : Agrees rungs s where
  keys := opIn_of_fit hfit h hglobal
  reads := getProperty_of_fit hfit hinstalled h hglobal
  properties := ordinaryOwnDescriptor_eq h
  writes _ v inherited hknown := writes_eq h hglobal hknown v inherited
  once key e d hentry hrecord := by
    rw [h.entry_none hrecord] at hentry
    cases hentry

/-! ## §4 Runs -/

theorem realmGlobal_step (s : Store) (op : Op) :
    (s.step sameValue op).realmGlobal = s.realmGlobal := by
  cases op with
  | setProperty key v inherited =>
    simp only [step, apply, setProperty, addKey, callSetter, writeCell]
    repeat' split
    all_goals rfl
  | defineOwnDataAttrs key v attrs =>
    simp only [step, apply, defineOwnDataAttrs]
    repeat' split
    all_goals rfl
  | defineAccessorOwn key g f attrs =>
    simp only [step, apply, defineAccessorOwn]
    split <;> rfl
  | opDefineMethod key v =>
    simp only [step, apply, opDefineMethod]
    repeat' split
    all_goals rfl
  | ordinaryDefineFromOwnDesc key d =>
    simp only [step, apply, ordinaryDefineFromOwnDesc, defineOwnDataAttrs, defineAccessorOwn]
    repeat' split
    all_goals rfl
  | deleteProperty key =>
    simp only [step, apply, deleteProperty, writeCell]
    repeat' split
    all_goals rfl
  | ordinarySet key v inherited =>
    simp only [step, apply, ordinarySet, extend, storeShapeExtension, writeCell]
    repeat' split
    all_goals rfl
  | ordinaryDefineOwnProperty key v attrs =>
    simp only [step, apply, ordinaryDefineOwnProperty, extend, storeShapeExtension]
    repeat' split
    all_goals rfl
  | applyPropertyDescriptor key d =>
    simp only [step, apply, applyPropertyDescriptor, installNewAccessor, extend,
      storeShapeExtension]
    repeat' split
    all_goals rfl
  | ordinaryDelete key =>
    simp only [step, apply, ordinaryDelete, writeCell]
    repeat' split
    all_goals rfl
  | preventExtensions => rfl
  | shapes op => rfl

/-- An object as it is born: of any kind, with any cells, no named property
yet, in a shape space that any history has made. -/
structure Born (s : Store) : Prop where
  history : ∃ ops, s.tree = ShapeTree.runOps ops
  valid : s.object.shape < s.tree.shapes.length
  records : ∀ key, s.record key = none
  dictionary : s.object.dictionary = none

theorem edgesAddKeys_runOps (ops : List ShapeOp) : (ShapeTree.runOps ops).EdgesAddKeys :=
  ShapeTree.edgesAddKeys_run ShapeTree.edgesAddKeys_empty ops

theorem Born.sound (h : Born s) : Sound s where
  edges := by
    obtain ⟨ops, hops⟩ := h.history
    rw [hops]
    exact edgesAddKeys_runOps ops
  valid := h.valid
  separate key _ _ := layout_eq_none.mpr (h.records key)
  shapeSlots key n hn := by
    rw [layout_eq_none.mpr (h.records key)] at hn
    cases hn
  dictSlots key e he := by
    rw [entry_none_of_dictionary h.dictionary] at he
    cases he

/-- An ordinary object with the empty root as its shape. -/
def plainObject : Store :=
  ⟨ShapeTree.runOps [.newRoot 0], { (default : JsObject) with shape := 0 }, false, true⟩

theorem born_plainObject : Born plainObject where
  history := ⟨[.newRoot 0], rfl⟩
  valid := by decide
  records _ := rfl
  dictionary := rfl

def setterOnly : PartialDescriptor := ⟨none, none, none, none, none, some (some 7)⟩

/-- `o.k = 1` and then `Object.defineProperty(o, "k", { set })`. -/
def redefinedOps : List Op :=
  [.setProperty (.string 1) (.smi 1) .missing, .applyPropertyDescriptor (.string 1) setterOnly]

/-- Both caches know the assigned key, and a surface and the chain serve another. -/
def assignedRungs : Rungs where
  surface key := if key = .string 2 then some (.value .null) else none
  stub key := if key = .string 1 then some (.own 0) else none
  site key := if key = .string 1 then some 0 else none
  chain key := if key = .string 2 then some (.value .null) else none

def assigned : Store := Lib.run (Store.step fun a b => a == b) plainObject (redefinedOps.take 1)

theorem fit_assignedRungs : assignedRungs.Fit assigned where
  surface key r h := by
    obtain ⟨rfl, -⟩ := Option.ite_none_right_eq_some.mp h
    exact ⟨fun e he => (by cases he), (by decide), fun slot hslot => (by cases hslot)⟩
  own key slot v h _ := by
    obtain ⟨rfl, hslot⟩ := Option.ite_none_right_eq_some.mp h
    cases hslot
    rfl
  site key slot v h _ := by
    obtain ⟨rfl, hslot⟩ := Option.ite_none_right_eq_some.mp h
    cases hslot
    rfl
  biased key v plain h := by
    obtain ⟨-, hstub⟩ := Option.ite_none_right_eq_some.mp h
    cases hstub
  plain key biased v h := by
    obtain ⟨-, hstub⟩ := Option.ite_none_right_eq_some.mp h
    cases hstub

end Store

end V12.Named
