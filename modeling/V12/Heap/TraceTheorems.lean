/-
V12.Heap.TraceTheorems — which handles the `Trace` implementations keep.

`Holds` lists the handles a cell can hand out or follow. Two kinds are not
reported: an object's shape, which `bind_shape` pins, and the keys of its
dictionary and of `property_keys`. So the held handles of reachable cells stay
live exactly when each collection finds those keys reachable by another way.
-/
import V12.Heap.GcTheorems

namespace V12.Heap

open SpaceState

variable {o : JsObject} {r : Ref} {h : Heap} {i : Nat} {op : GcOp}

/-! ## §1 The handles of a cell -/

/-- A handle some field of an object holds. -/
inductive JsObject.Holds (o : JsObject) : Ref → Prop where
  | shape : o.Holds (.shapes, o.shape)
  | slot {v : JsValue} {r : Ref} (hv : v ∈ o.properties) (hr : v.asSlot = some r) : o.Holds r
  | propertyKey {key : PropKey} (hkey : some key ∈ o.propertyKeys) : o.Holds key.slot
  | element {v : JsValue} {r : Ref} (hv : v ∈ o.elements) (hr : v.asSlot = some r) : o.Holds r
  | arrayElement {i : Nat} {v : JsValue} {r : Ref} (hv : o.elementsArray.get i = some v)
      (hr : v.asSlot = some r) : o.Holds r
  | prototype {p : Nat} (hp : o.prototype = some p) : o.Holds (.objects, p)
  | callee {v : JsValue} {r : Ref} (hv : o.argumentsCallee = some v) (hr : v.asSlot = some r) :
      o.Holds r
  | proxyTarget {p : Nat} (hp : o.proxyTarget = some p) : o.Holds (.objects, p)
  | proxyHandler {p : Nat} (hp : o.proxyHandler = some p) : o.Holds (.objects, p)
  | capturedEnv {p : Nat} (hp : o.capturedEnv = some p) : o.Holds (.objects, p)
  | binding {cell : BindingCellData} {r : Ref} (hcell : o.bindingCell = some cell)
      (hr : cell.value.asSlot = some r) : o.Holds r
  | namespaceCell {record : ModuleNamespaceRecord} {c : Nat}
      (hrecord : o.moduleNamespace = some record) (hc : c ∈ record.cells) : o.Holds (.objects, c)
  | realmEval {global : Nat} (hg : o.callable = .realmEval global) : o.Holds (.objects, global)
  | bound {state : Nat} (hs : o.callable = .bound state) : o.Holds (.objects, state)
  | privateMethod {name : PrivateName} {r : Ref} (hname : o.privateName = some name)
      (hr : name.method.asSlot = some r) : o.Holds r
  | privateSetter {name : PrivateName} {r : Ref} (hname : o.privateName = some name)
      (hr : name.setter.asSlot = some r) : o.Holds r
  | privateElementName {es : List (Nat × JsValue)} {e : Nat × JsValue}
      (hes : o.privateElements = some es) (he : e ∈ es) : o.Holds (.objects, e.1)
  | privateElementValue {es : List (Nat × JsValue)} {e : Nat × JsValue} {r : Ref}
      (hes : o.privateElements = some es) (he : e ∈ es) (hr : e.2.asSlot = some r) : o.Holds r
  | dictionaryKey {d : List (PropKey × DictEntry)} {e : PropKey × DictEntry}
      (hd : o.dictionary = some d) (he : e ∈ d) : o.Holds e.1.slot
  | dictionaryGetter {d : List (PropKey × DictEntry)} {e : PropKey × DictEntry} {g : Nat}
      (hd : o.dictionary = some d) (he : e ∈ d) (hg : e.2.getter = some g) : o.Holds (.objects, g)
  | dictionarySetter {d : List (PropKey × DictEntry)} {e : PropKey × DictEntry} {s : Nat}
      (hd : o.dictionary = some d) (he : e ∈ d) (hs : e.2.setter = some s) : o.Holds (.objects, s)

/-- A handle some field of a shape holds: its parent, its records' keys and
accessor halves, and its children. -/
inductive Shape.Holds (s : Shape) : Ref → Prop where
  | parent {p : Nat} (hp : s.parent = some p) : s.Holds (.shapes, p)
  | key {d : Descriptor} (hd : d ∈ s.descriptors.asSlice) : s.Holds d.key.slot
  | getter {key : PropKey} {g : Nat} {setter : Option Nat} {attrs : Attrs}
      (hd : .accessor key (some g) setter attrs ∈ s.descriptors.asSlice) : s.Holds (.objects, g)
  | setter {key : PropKey} {getter : Option Nat} {w : Nat} {attrs : Attrs}
      (hd : .accessor key getter (some w) attrs ∈ s.descriptors.asSlice) : s.Holds (.objects, w)
  | child {e : Edge} (he : e ∈ s.transitions.edges) : s.Holds (.shapes, e.2)

/-- A handle some field of a string holds. -/
inductive V12Str.Holds (s : V12Str) : Ref → Prop where
  | left {l r len : Nat} (hs : s.storage = .cons l r len) : s.Holds (.strings, l)
  | right {l r len : Nat} (hs : s.storage = .cons l r len) : s.Holds (.strings, r)
  | parent {p start len : Nat} (hs : s.storage = .sliced p start len) : s.Holds (.strings, p)

/-- The handles of a cell; symbols and bigints have none. -/
def Holds : (space : Space) → Cell space → Ref → Prop
  | .objects, o, r => JsObject.Holds o r
  | .strings, s, r => V12Str.Holds s r
  | .shapes, s, r => Shape.Holds s r
  | .symbols, _, _ | .bigints, _, _ => False

/-- The keys of an object's dictionary and of its `property_keys`. -/
def keySlots (o : JsObject) : List Ref :=
  (o.dictionary.getD []).map (fun e => e.1.slot) ++
    o.propertyKeys.flatMap fun key => key.toList.map PropKey.slot

/-! ## §2 What the implementations report -/

theorem mem_dictEntries {d : List (PropKey × DictEntry)} {e : PropKey × DictEntry}
    (hd : o.dictionary = some d) (he : e ∈ d) : e.2 ∈ o.dictEntries := by
  unfold JsObject.dictEntries
  rw [hd]
  exact List.mem_map_of_mem he

theorem mem_trace_object (o : JsObject) (r : Ref) : r ∈ trace o ↔
    r ∈ trace o.properties ∨ r ∈ trace o.propertyKeys ∨ r ∈ trace o.elements ∨
      r ∈ trace o.elementsArray ∨ r ∈ traceHandle .objects o.prototype ∨
      r ∈ trace o.argumentsCallee ∨ r ∈ traceHandle .objects o.proxyTarget ∨
      r ∈ traceHandle .objects o.proxyHandler ∨ r ∈ traceHandle .objects o.capturedEnv ∨
      r ∈ trace o.bindingCell ∨ r ∈ trace o.moduleNamespace ∨ r ∈ trace o.callable ∨
      r ∈ trace o.privateName ∨
      r ∈ (o.privateElements.getD []).flatMap (fun e => ((.objects, e.1) : Ref) :: trace e.2) ∨
      r ∈ trace o.dictEntries := by
  simp only [trace, List.mem_append, or_assoc]

/-- **An object reports every handle it holds but its shape and its keys.** -/
theorem JsObject.Holds.reported (h : o.Holds r) :
    r ∈ trace o ∨ r = (.shapes, o.shape) ∨ r ∈ keySlots o := by
  have value {v : JsValue} {r : Ref} (hr : v.asSlot = some r) : r ∈ trace v :=
    mem_trace_value.mpr hr
  rw [mem_trace_object]
  cases h with
  | shape => exact Or.inr (Or.inl rfl)
  | propertyKey hkey =>
    refine Or.inr (Or.inr (List.mem_append_right _ ?_))
    exact List.mem_flatMap.mpr ⟨_, hkey, by simp⟩
  | dictionaryKey hd he =>
    refine Or.inr (Or.inr (List.mem_append_left _ ?_))
    rw [hd]
    exact List.mem_map_of_mem he
  | slot hv hr => exact Or.inl (by simp [mem_trace_list.mpr ⟨_, hv, value hr⟩])
  | element hv hr => exact Or.inl (by simp [mem_trace_list.mpr ⟨_, hv, value hr⟩])
  | arrayElement hv hr => exact Or.inl (by simp [ElementsStorage.trace_of_get hv hr])
  | prototype hp => exact Or.inl (by simp [mem_traceHandle, hp])
  | callee hv hr => exact Or.inl (by simp [mem_trace_option.mpr ⟨_, hv, value hr⟩])
  | proxyTarget hp => exact Or.inl (by simp [mem_traceHandle, hp])
  | proxyHandler hp => exact Or.inl (by simp [mem_traceHandle, hp])
  | capturedEnv hp => exact Or.inl (by simp [mem_traceHandle, hp])
  | binding hcell hr =>
    have hmem : _ ∈ trace o.bindingCell := mem_trace_option.mpr ⟨_, hcell, value hr⟩
    exact Or.inl (by simp [hmem])
  | namespaceCell hrecord hc =>
    have hmem : _ ∈ trace o.moduleNamespace :=
      mem_trace_option.mpr ⟨_, hrecord, List.mem_map_of_mem hc⟩
    exact Or.inl (by simp [hmem])
  | @realmEval global hg =>
    have hmem : (.objects, global) ∈ trace o.callable := by
      rw [hg]
      exact List.mem_singleton.mpr rfl
    exact Or.inl (by simp [hmem])
  | @bound state hs =>
    have hmem : (.objects, state) ∈ trace o.callable := by
      rw [hs]
      exact List.mem_singleton.mpr rfl
    exact Or.inl (by simp [hmem])
  | privateMethod hname hr =>
    have hmem : _ ∈ trace o.privateName :=
      mem_trace_option.mpr ⟨_, hname, List.mem_append_left _ (value hr)⟩
    exact Or.inl (by simp [hmem])
  | privateSetter hname hr =>
    have hmem : _ ∈ trace o.privateName :=
      mem_trace_option.mpr ⟨_, hname, List.mem_append_right _ (value hr)⟩
    exact Or.inl (by simp [hmem])
  | @privateElementName es e hes he =>
    have hmem : (.objects, e.1) ∈ (o.privateElements.getD []).flatMap
        (fun e => ((.objects, e.1) : Ref) :: trace e.2) := by
      rw [hes]
      exact List.mem_flatMap.mpr ⟨_, he, List.mem_cons_self⟩
    exact Or.inl (by simp only [hmem, true_or, or_true])
  | @privateElementValue es e r hes he hr =>
    have hmem : r ∈ (o.privateElements.getD []).flatMap
        (fun e => ((.objects, e.1) : Ref) :: trace e.2) := by
      rw [hes]
      exact List.mem_flatMap.mpr ⟨_, he, List.mem_cons_of_mem _ (value hr)⟩
    exact Or.inl (by simp only [hmem, true_or, or_true])
  | dictionaryGetter hd he hg =>
    have hmem : _ ∈ trace o.dictEntries := mem_trace_list.mpr
      ⟨_, mem_dictEntries hd he, List.mem_append_left _ (mem_traceHandle.mpr ⟨_, hg, rfl⟩)⟩
    exact Or.inl (by simp [hmem])
  | dictionarySetter hd he hs =>
    have hmem : _ ∈ trace o.dictEntries := mem_trace_list.mpr
      ⟨_, mem_dictEntries hd he, List.mem_append_right _ (mem_traceHandle.mpr ⟨_, hs, rfl⟩)⟩
    exact Or.inl (by simp [hmem])

theorem Shape.Holds.reported {s : Shape} (h : s.Holds r) :
    r ∈ trace s ++ weakRefs .shapes s := by
  cases h with
  | parent hp =>
    exact List.mem_append_left _ (List.mem_append_left _ (mem_traceHandle.mpr ⟨_, hp, rfl⟩))
  | @key d hd =>
    refine List.mem_append_left _ (List.mem_append_right _ (mem_trace_list.mpr ⟨d, hd, ?_⟩))
    cases d <;> exact List.mem_cons_self
  | getter hd =>
    refine List.mem_append_left _ (List.mem_append_right _ (mem_trace_list.mpr ⟨_, hd, ?_⟩))
    exact List.mem_cons_of_mem _ (List.mem_append_left _ (mem_traceHandle.mpr ⟨_, rfl, rfl⟩))
  | setter hd =>
    refine List.mem_append_left _ (List.mem_append_right _ (mem_trace_list.mpr ⟨_, hd, ?_⟩))
    exact List.mem_cons_of_mem _ (List.mem_append_right _ (mem_traceHandle.mpr ⟨_, rfl, rfl⟩))
  | child he => exact List.mem_append_right _ (List.mem_map_of_mem he)

theorem V12Str.Holds.reported {s : V12Str} (h : s.Holds r) : r ∈ trace s := by
  obtain ⟨storage, hash⟩ := s
  cases h with
  | left hs =>
    obtain rfl : storage = _ := hs
    exact List.mem_cons_self
  | right hs =>
    obtain rfl : storage = _ := hs
    exact List.mem_cons_of_mem _ List.mem_cons_self
  | parent hs =>
    obtain rfl : storage = _ := hs
    exact List.mem_cons_self

theorem keySlots_held (hr : r ∈ keySlots o) : o.Holds r := by
  rcases List.mem_append.mp hr with hr | hr
  · cases hd : o.dictionary with
    | none => simp [hd] at hr
    | some d =>
      rw [hd] at hr
      obtain ⟨e, he, rfl⟩ := List.mem_map.mp hr
      exact .dictionaryKey hd he
  · obtain ⟨key, hkey, hr⟩ := List.mem_flatMap.mp hr
    cases key with
    | none => cases hr
    | some key =>
      obtain rfl : r = key.slot := by simpa using hr
      exact .propertyKey hkey

/-! ## §3 What a run keeps -/

/-- **The purpose**: what a reachable cell holds is live. -/
def Intact (h : Heap) : Prop :=
  ∀ (space : Space) (i : Nat) (cell : Cell space), h.Reachable (space, i) →
    h.get (space, i) = some cell → ∀ r, Holds space cell r → h.isAlive r = true

/-- The keys that are not reported are reachable by another way. -/
def KeysRooted (h : Heap) : Prop :=
  ∀ (i : Nat) (o : JsObject), h.Reachable (.objects, i) → h.get (.objects, i) = some o →
    ∀ r ∈ keySlots o, h.Reachable r

/-- What an object holds without reporting it is live, its shape pinned. -/
def HoldsLive (h : Heap) (o : JsObject) : Prop :=
  o.shape ∈ h.shapeRoots ∧ ∀ r ∈ keySlots o, h.isAlive r = true

/-- The object a call stores satisfies `P`. -/
def GcOp.StoresObject (P : JsObject → Prop) : GcOp → Prop
  | .alloc .objects o | .write .objects _ o => P o
  | _ => True

/-- The mutator's contract with every held handle, unreported ones too; an object
gets its shape through `bind_shape`, its default or the promise root, all of
them pinned. -/
def Stores (h : Heap) (op : GcOp) : Prop := h.Kept op ∧ op.StoresObject (HoldsLive h)

def Pinned (h : Heap) : Prop :=
  ∀ (i : Nat) (o : JsObject), h.isAlive (.objects, i) = true → h.get (.objects, i) = some o →
    HoldsLive h o

theorem shapeRoot_mem (hi : i ∈ h.shapeRoots) : (.shapes, i) ∈ h.rootRefs :=
  (mem_rootRefs h _).mpr (Or.inr (Or.inl ⟨i, hi, rfl⟩))

theorem intact_of_pinned (hs : Sound h) (hp : Pinned h) : Intact h := by
  intro space i cell hreach hget r hr
  have halive := hs.alive_of_reachable hreach
  have hlive := hs.cells space i cell halive hget
  cases space with
  | objects =>
    rcases JsObject.Holds.reported hr with htrace | rfl | hkey
    · exact hlive r (List.mem_append_left _ htrace)
    · exact hs.roots _ (shapeRoot_mem (hp i cell halive hget).1)
    · exact (hp i cell halive hget).2 r hkey
  | strings => exact hlive r (List.mem_append_left _ (V12Str.Holds.reported hr))
  | shapes => exact hlive r (Shape.Holds.reported hr)
  | symbols => cases hr
  | bigints => cases hr

/-! ## §4 The step -/

theorem born_alloc (hl : Ledgers h) {space : Space} {value : Cell space}
    (halive : (h.alloc space value).1.isAlive (.objects, i) = true)
    (hget : (h.alloc space value).1.get (.objects, i) = some o) :
    h.isAlive (.objects, i) = true ∨ GcOp.alloc space value = .alloc .objects o := by
  have ha := alloc_allocates (hl space) value
  by_cases hspace : Space.objects = space
  · subst hspace
    change ((h.setSpace .objects ((h.spaces .objects).alloc value).1).spaces .objects).isAlive i =
      true at halive
    change ((h.setSpace .objects ((h.spaces .objects).alloc value).1).spaces .objects).slots[i]? =
      some o at hget
    rw [spaces_setSpace_self] at halive hget
    rw [ha.alive] at halive
    split at halive
    case isTrue heq =>
      rw [heq, ha.slot] at hget
      rw [Option.some.inj hget]
      exact Or.inr rfl
    case isFalse => exact Or.inl halive
  · change ((h.setSpace space ((h.spaces space).alloc value).1).spaces .objects).isAlive i =
      true at halive
    rw [spaces_setSpace_of_ne h hspace] at halive
    exact Or.inl halive

theorem born_object (hl : Ledgers h) (htarget : op.target = none) (hcollect : op ≠ .forceCollect)
    (halive : (h.step op).isAlive (.objects, i) = true)
    (hget : (h.step op).get (.objects, i) = some o) :
    h.isAlive (.objects, i) = true ∨ op = .alloc .objects o := by
  cases op with
  | alloc space value => exact born_alloc hl halive hget
  | write space i value => cases htarget
  | bindShape obj shape => cases htarget
  | forceCollect => exact absurd rfl hcollect
  | sweepStep space =>
    refine Or.inl ?_
    by_cases hspace : Space.objects = space
    · subst hspace
      change ((h.setSpace .objects (h.spaces .objects).sweepStep.1).spaces .objects).isAlive i =
        true at halive
      rw [spaces_setSpace_self, (sweepStep_sweeps _).isAlive] at halive
      exact halive
    · change ((h.setSpace space (h.spaces space).sweepStep.1).spaces .objects).isAlive i =
        true at halive
      rw [spaces_setSpace_of_ne h hspace] at halive
      exact halive
  | internString hash text =>
    change (h.internString hash text).1.isAlive (.objects, i) = true at halive
    change (h.internString hash text).1.get (.objects, i) = some o at hget
    unfold internString at halive hget
    split at halive
    · exact Or.inl halive
    · rename_i hmiss
      rw [hmiss] at hget
      rcases born_alloc hl halive hget with hold | heq
      · exact Or.inl hold
      · cases heq
  | symbolForKey key =>
    change (h.symbolForKey key).1.isAlive (.objects, i) = true at halive
    change (h.symbolForKey key).1.get (.objects, i) = some o at hget
    unfold symbolForKey at halive hget
    split at halive
    · exact Or.inl halive
    · rename_i hmiss
      rw [hmiss] at hget
      rcases born_alloc hl halive hget with hold | heq
      · exact Or.inl hold
      · cases heq
  | wellKnownSymbol which =>
    change (h.wellKnownSymbol which).1.isAlive (.objects, i) = true at halive
    change (h.wellKnownSymbol which).1.get (.objects, i) = some o at hget
    unfold wellKnownSymbol at halive hget
    simp only [] at halive hget
    split at halive
    · exact Or.inl halive
    · rename_i hmiss
      rw [hmiss] at hget
      rcases born_alloc hl halive hget with hold | heq
      · exact Or.inl hold
      · cases heq
  | registerRealmGlobal global =>
    change (h.registerRealmGlobal global).isAlive (.objects, i) = true at halive
    unfold registerRealmGlobal at halive
    split at halive <;> exact Or.inl halive
  | addModuleRoot object =>
    change (h.addModuleRoot object).isAlive (.objects, i) = true at halive
    unfold addModuleRoot at halive
    split at halive <;> exact Or.inl halive
  | addPinnedRoot object =>
    change (h.addPinnedRoot object).isAlive (.objects, i) = true at halive
    unfold addPinnedRoot at halive
    split at halive <;> exact Or.inl halive
  | _ => exact Or.inl halive

theorem shapeRoots_mono (h : Heap) (op : GcOp) (hi : i ∈ h.shapeRoots) :
    i ∈ (h.step op).shapeRoots := by
  cases op with
  | addShapeRoot shape => exact List.mem_append_left _ hi
  | bindShape obj shape =>
    change i ∈ (h.bindShape obj shape).shapeRoots
    unfold bindShape
    split
    · exact List.mem_append_left _ hi
    · exact hi
  | registerRealmGlobal global =>
    change i ∈ (h.registerRealmGlobal global).shapeRoots
    unfold registerRealmGlobal
    split <;> exact hi
  | addModuleRoot object =>
    change i ∈ (h.addModuleRoot object).shapeRoots
    unfold addModuleRoot
    split <;> exact hi
  | addPinnedRoot object =>
    change i ∈ (h.addPinnedRoot object).shapeRoots
    unfold addPinnedRoot
    split <;> exact hi
  | internString hash text =>
    change i ∈ (h.internString hash text).1.shapeRoots
    unfold internString
    split <;> exact hi
  | symbolForKey key =>
    change i ∈ (h.symbolForKey key).1.shapeRoots
    unfold symbolForKey
    split <;> exact hi
  | wellKnownSymbol which =>
    change i ∈ (h.wellKnownSymbol which).1.shapeRoots
    unfold wellKnownSymbol
    simp only []
    split <;> exact hi
  | _ => exact hi

theorem write_object {space : Space} {j : Nat} {value : Cell space}
    (hj : h.isAlive (space, j) = true) (hget : (h.write space j value).get (.objects, i) = some o) :
    h.get (.objects, i) = some o ∨ GcOp.write space j value = .write .objects i o := by
  by_cases heq : (space, j) = (.objects, i)
  · obtain ⟨rfl, rfl⟩ := Prod.mk.inj heq
    rw [get_write_self hj] at hget
    rw [Option.some.inj hget]
    exact Or.inr rfl
  · rw [get_write_of_ne h value heq] at hget
    exact Or.inl hget

theorem bindShape_object {obj shape : Nat} (hobj : h.isAlive (.objects, obj) = true)
    (hget : (h.bindShape obj shape).get (.objects, i) = some o) :
    h.get (.objects, i) = some o ∨
      ∃ old : JsObject, h.get (.objects, i) = some old ∧ o = { old with shape := shape } ∧
        shape ∈ (h.bindShape obj shape).shapeRoots := by
  unfold bindShape at hget ⊢
  split at hget
  case h_1 old hold =>
    change (h.write .objects obj ({ old with shape := shape } : JsObject)).get (.objects, i) =
      some o at hget
    rcases write_object hobj hget with hsame | heq
    · exact Or.inl hsame
    · injection heq with _ hi ho
      exact Or.inr ⟨old, hi ▸ hold, ho.symm, List.mem_append_right _ (List.mem_singleton.mpr rfl)⟩
  case h_2 => exact Or.inl hget

theorem isAlive_bindShape (h : Heap) (obj shape : Nat) (r : Ref) :
    (h.bindShape obj shape).isAlive r = h.isAlive r := by
  unfold bindShape
  split
  · exact isAlive_write h _ _ _ r
  · rfl

theorem get_forceCollect_object (hs : Sound h) (hr : h.Reachable (.objects, i)) :
    h.forceCollect.get (.objects, i) = h.get (.objects, i) :=
  (get_forceCollect hs hr).trans Option.map_id'

/-- **Object rule**: what each object stored satisfies, and neither growth nor a
binding breaks, all live objects satisfy after a call that does not collect. -/
theorem step_objects {P : Heap → JsObject → Prop} (hl : Ledgers h) (hkept : h.Kept op)
    (hcollect : op ≠ .forceCollect) (hmono : ∀ o, P h o → P (h.step op) o)
    (hbound : ∀ o shape, P h o → shape ∈ (h.step op).shapeRoots →
      P (h.step op) { o with shape := shape }) (hstored : op.StoresObject (P h))
    (hall : ∀ (i : Nat) (o : JsObject), h.isAlive (.objects, i) = true →
      h.get (.objects, i) = some o → P h o) :
    ∀ (i : Nat) (o : JsObject), (h.step op).isAlive (.objects, i) = true →
      (h.step op).get (.objects, i) = some o → P (h.step op) o := by
  intro i o halive hget
  cases htarget : op.target with
  | none =>
    refine hmono o ?_
    rcases born_object hl htarget hcollect halive hget with hold | rfl
    · rw [(step_grows hl hkept htarget hcollect).contents _ hold] at hget
      exact hall i o hold hget
    · exact hstored
  | some r =>
    cases op with
    | write space j value =>
      refine hmono o ?_
      rcases write_object hkept.1 hget with hold | heq
      · exact hall i o ((isAlive_write h space j value _).symm.trans halive) hold
      · cases heq
        exact hstored
    | bindShape obj shape =>
      have hold_alive : h.isAlive (.objects, i) = true :=
        (isAlive_bindShape h obj shape _).symm.trans halive
      rcases bindShape_object hkept.1 hget with hold | ⟨old, hold, rfl, hroot⟩
      · exact hmono o (hall i o hold_alive hold)
      · exact hbound old shape (hall i old hold_alive hold) hroot
    | _ => cases htarget

theorem isAlive_step (hl : Ledgers h) (hkept : h.Kept op) (hcollect : op ≠ .forceCollect) (r : Ref)
    (hr : h.isAlive r = true) :
    (h.step op).isAlive r = true := by
  cases htarget : op.target with
  | none => exact (step_grows hl hkept htarget hcollect).alive r hr
  | some t =>
    cases op with
    | write space j value => exact (isAlive_write h space j value r).trans hr
    | bindShape obj shape => exact (isAlive_bindShape h obj shape r).trans hr
    | _ => cases htarget

/-- **Step rule**: under the contract, and with the keys rooted if the call
collects, live objects go on holding live handles. -/
theorem step_pinned (hs : Sound h) (hp : Pinned h) (hstores : h.Stores op)
    (hrooted : op = .forceCollect → KeysRooted h) : Pinned (h.step op) := by
  by_cases hcollect : op = .forceCollect
  · subst hcollect
    intro i o halive hget
    have hreach : h.Reachable (.objects, i) := (isAlive_forceCollect hs _).mp halive
    have hsame : h.get (.objects, i) = some o := (get_forceCollect_object hs hreach).symm.trans hget
    refine ⟨(hp i o (hs.alive_of_reachable hreach) hsame).1, fun r hr => ?_⟩
    exact (isAlive_forceCollect hs r).mpr (hrooted rfl i o hreach hsame r hr)
  · have hmono (r : Ref) (hr : h.isAlive r = true) : (h.step op).isAlive r = true :=
      isAlive_step hs.ledgers hstores.1 hcollect r hr
    exact step_objects (P := HoldsLive) hs.ledgers hstores.1 hcollect
      (fun o ho => ⟨shapeRoots_mono h op ho.1, fun r hr => hmono r (ho.2 r hr)⟩)
      (fun o shape ho hroot => ⟨hroot, fun r hr => hmono r (ho.2 r hr)⟩) hstores.2 hp

/-! ## §5 Any run -/

theorem reachable_forceCollect (hs : Sound h) (hr : h.Reachable r) :
    h.forceCollect.Reachable r := by
  have hrange {u : Ref} (hu : h.Reachable u) : h.forceCollect.inRange u = true :=
    get_none_or_inRange ((isAlive_forceCollect hs u).mpr hu)
  refine Lib.Reach.mono (fun v hv hin => ⟨hv, hrange (.root hv hin)⟩) (fun u hu v hv hin => ?_) hr
  refine ⟨?_, hrange (.step hu hv hin)⟩
  unfold referents at hv ⊢
  rw [get_forceCollect hs hu]
  cases hcell : h.get u with
  | none => simp [hcell] at hv
  | some cell =>
    simp only [hcell] at hv
    simp only [Option.map_some, trace_pruneCell]
    exact hv

theorem keysRooted_of_intact (hs : Sound h) (hi : Intact h.forceCollect) :
    KeysRooted h := by
  intro i o hreach hget r hr
  have hsame : h.forceCollect.get (.objects, i) = some o :=
    (get_forceCollect_object hs hreach).trans hget
  have halive := hi .objects i o (reachable_forceCollect hs hreach) hsame r (keySlots_held hr)
  exact (isAlive_forceCollect hs r).mp halive

theorem pinned_new : Pinned new := fun _ _ halive _ => by cases halive

/-- The condition: each collection of the run finds the unreported keys reachable. -/
def CollectsRooted (h : Heap) (op : GcOp) : Prop := op = .forceCollect → KeysRooted h

/-- **Run rule.** -/
theorem run_pinned {ops : List GcOp} (hstores : Lib.StepsMeet step Stores new ops)
    (hrooted : Lib.StepsMeet step CollectsRooted new ops) :
    Sound (Lib.run step new ops) ∧ Pinned (Lib.run step new ops) := by
  have hboth := (Lib.stepsMeet_and hstores hrooted)
  exact Lib.run_invariant (I := fun h => Sound h ∧ Pinned h)
    (fun h op hinv hop => ⟨step_sound hinv.1 hop.1.1, step_pinned hinv.1 hinv.2 hop.1 hop.2⟩)
    ⟨sound_new, pinned_new⟩ hboth

/-- **No reachable object ever holds a reclaimed handle exactly when every
collection finds the dictionary and `property_keys` keys of the reachable
objects reachable by another way.** -/
theorem intact_iff (ops : List GcOp) (hstores : Lib.StepsMeet step Stores new ops) :
    (∀ before after, ops = before ++ after → Intact (Lib.run step new before)) ↔
      Lib.StepsMeet step CollectsRooted new ops := by
  have hkept : Lib.StepsMeet step Kept new ops := hstores.imp fun _ _ h => h.1
  constructor
  · intro hintact
    by_contra hfail
    obtain ⟨before, op, after, heq, -, hbad⟩ := Lib.exists_first_failure hfail
    refine hbad ?_
    rintro rfl
    have hs : Sound (Lib.run step new before) := by
      rw [heq, Lib.stepsMeet_append] at hkept
      exact run_sound hkept.1
    have hafter := hintact (before ++ [.forceCollect]) after (by rw [heq]; simp)
    rw [Lib.run_concat] at hafter
    exact keysRooted_of_intact hs hafter
  · rintro hrooted before after rfl
    obtain ⟨hs, hp⟩ := run_pinned (Lib.stepsMeet_append.mp hstores).1
      (Lib.stepsMeet_append.mp hrooted).1
    exact intact_of_pinned hs hp

/-! ## §6 The key that goes -/

/-- An object in dictionary mode with one data property under a symbol. -/
def symbolKeyed (symbol : Nat) : JsObject :=
  { (default : JsObject) with
    properties := [.smi 1]
    dictionary := some [(.symbol symbol, ⟨0, .default, none, none, false, 0⟩)] }

theorem trace_symbolKeyed (symbol : Nat) : trace (symbolKeyed symbol) = [] := by
  simp [trace, symbolKeyed, JsObject.dictEntries, traceHandle, JsValue.asSlot, default,
    ElementsStorage.new]

theorem symbolKeyed_stored {symbol : Nat} (hshape : 0 ∈ h.shapeRoots)
    (halive : h.isAlive (.symbols, symbol) = true) :
    h.Stores (.alloc .objects (symbolKeyed symbol)) := by
  have hnone : h.Kept (.alloc .objects (symbolKeyed symbol)) := by
    intro r hr
    rcases List.mem_append.mp hr with hr | hr
    · have hin : r ∈ trace (symbolKeyed symbol) := hr
      rw [trace_symbolKeyed] at hin
      cases hin
    · cases hr
  refine ⟨hnone, hshape, fun r hr => ?_⟩
  have hmem : r ∈ [((.symbols, symbol) : Ref)] := hr
  rw [List.mem_singleton.mp hmem]
  exact halive

/-- With the symbol a root, the object keeps its key. -/
theorem intact_symbolKeyed :
    Intact (Lib.run step new [GcOp.alloc .symbols V12Symbol.mk, .addRoot (.symbol 0),
      .alloc .objects (symbolKeyed 0), .addRoot (.object 0), .forceCollect]) := by
  refine (intact_iff _ ?_).mpr ?_ _ [] (List.append_nil _).symm
  · refine ⟨⟨symbol_cellLive new, trivial⟩, ⟨fun r hr => ?_, trivial⟩,
      symbolKeyed_stored (by decide) (by decide), ⟨fun r hr => ?_, trivial⟩, ⟨trivial, trivial⟩,
      trivial⟩
    · obtain rfl : r = (.symbols, 0) := (Option.some.inj (mem_trace_value.mp hr)).symm
      decide
    · obtain rfl : r = (.objects, 0) := (Option.some.inj (mem_trace_value.mp hr)).symm
      decide
  · refine ⟨by rintro ⟨⟩, by rintro ⟨⟩, by rintro ⟨⟩, by rintro ⟨⟩,
      fun _ i o _ hget r hr => ?_, trivial⟩
    have hone : [symbolKeyed 0][i]? = some o := hget
    obtain rfl : o = symbolKeyed 0 := List.mem_singleton.mp (List.mem_of_getElem? hone)
    have hmem : r ∈ [((.symbols, 0) : Ref)] := hr
    rw [List.mem_singleton.mp hmem]
    exact .root (by decide) (by decide)

/-- Without it the collection reclaims the key of a rooted object, and the next
symbol allocated is that key. -/
theorem dictionary_key_reclaimed :
    ¬ (∀ ops, Lib.StepsMeet step Stores new ops → Intact (Lib.run step new ops)) ∧
      ((Lib.run step new [.alloc .symbols V12Symbol.mk, .alloc .objects (symbolKeyed 0),
        .addRoot (.object 0), .forceCollect]).alloc .symbols V12Symbol.mk).2 = 0 := by
  refine ⟨fun hall => ?_, by decide⟩
  have hintact := hall [.alloc .symbols V12Symbol.mk, .alloc .objects (symbolKeyed 0),
    .addRoot (.object 0), .forceCollect] ?_
  · have hdead := hintact .objects 0 (symbolKeyed 0) (.root (by decide) (by decide)) rfl (.symbols, 0)
      (keySlots_held (by decide))
    revert hdead
    decide
  · refine ⟨⟨symbol_cellLive new, trivial⟩, symbolKeyed_stored (by decide) (by decide),
      ⟨fun r hr => ?_, trivial⟩, ⟨trivial, trivial⟩, trivial⟩
    obtain rfl : r = (.objects, 0) := (Option.some.inj (mem_trace_value.mp hr)).symm
    decide

end V12.Heap
