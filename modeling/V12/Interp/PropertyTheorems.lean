/-
V12.Interp.PropertyTheorems — what the stub cache serves is what the
uncached lookup finds.

A current entry promises what the shapes it names answer (`EntryOk`), and live
shapes keep their plain answers. It says nothing about dictionaries: the
theorem asks for entries made from shape records (`RecordsByShape`) and for
reads whose path has no dictionary entry for the key (`EntryFree`).
-/
import V12.Interp.Property

namespace V12.Interp

open V12.Heap

namespace Machine

variable {h h' : Heap} {i obj : Nat} {m : Machine} {o : JsObject} {key : PropKey}

/-! ## §1 Entries and what they promise -/

/-- A live object whose kind satisfies `P`. -/
def OfKind (h : Heap) (i : Nat) (P : Kind → Prop) : Prop :=
  h.isAlive (.objects, i) = true ∧ ∃ o : JsObject, h.get (.objects, i) = some o ∧ P o.kind

/-- The promise of an entry: its holder is the receiver, the first link or the
second link, and the shapes in front do not describe the key. -/
inductive EntryOk (h : Heap) (e : StubSlot) : Prop where
  | own (hlink : e.link0 = none) (hslot : h.Answers e.shape e.key (.slot e.slot))
  | linked (hlink : e.link0 = some e.holder) (hfront : h.Answers e.shape e.key .absent)
      (hkind : OfKind h e.holder (· ≠ .proxy)) (hslot : h.Answers e.holderShape e.key (.slot e.slot))
  | behind {mid : Nat} (hlink : e.link0 = some mid) (hlink1 : e.link1 = some e.holder)
      (hfront : h.Answers e.shape e.key .absent) (hmid : h.Answers e.midShape e.key .absent)
      (hplain : OfKind h mid Plain) (hkind : OfKind h e.holder (· ≠ .proxy))
      (hslot : h.Answers e.holderShape e.key (.slot e.slot))

theorem OfKind.mono (hstable : Stable h h') {P : Kind → Prop} (hk : OfKind h i P) :
    OfKind h' i P := by
  obtain ⟨halive, o, ho, hP⟩ := hk
  obtain ⟨o', ho', hkind⟩ := hstable.kind i o halive ho
  exact ⟨hstable.alive _ halive, o', ho', hkind ▸ hP⟩

theorem EntryOk.mono (hstable : Stable h h') {e : StubSlot} (he : EntryOk h e) :
    EntryOk h' e := by
  cases he with
  | own hlink hslot => exact .own hlink (hstable.answers _ _ _ hslot)
  | linked hlink hfront hkind hslot =>
    exact .linked hlink (hstable.answers _ _ _ hfront) (hkind.mono hstable)
      (hstable.answers _ _ _ hslot)
  | behind hlink hlink1 hfront hmid hplain hkind hslot =>
    exact .behind hlink hlink1 (hstable.answers _ _ _ hfront) (hstable.answers _ _ _ hmid)
      (hplain.mono hstable) (hkind.mono hstable) (hstable.answers _ _ _ hslot)

/-- **The invariant.** -/
structure Consistent (m : Machine) : Prop where
  sound : Heap.Sound m.heap
  shaped : ∀ (i : Nat) (o : JsObject), m.heap.isAlive (.objects, i) = true →
    m.heap.get (.objects, i) = some o → o.shape ∈ m.heap.shapeRoots
  stamped : m.cache.Stamped
  entries : ∀ e, m.cache.Current e → EntryOk m.heap e

/-! ## §2 The condition -/

/-- The walk over shape records alone, up to the first exotic object. -/
def shapeWalk (m : Machine) (key : PropKey) : Nat → Option Nat → Option (Nat × Descriptor)
  | _, none | 0, some _ => none
  | levels + 1, some i =>
    match m.object i with
    | none => none
    | some o =>
      if o.kind = .proxy then none
      else
        match m.lookupProperty o key with
        | some d => some (i, d)
        | none =>
          if o.kind = .moduleNamespace then none else shapeWalk m key levels o.prototype

/-- The owner is the receiver, its prototype or the prototype of that. -/
def InReach (m : Machine) (obj owner : Nat) : Prop :=
  ∃ o, m.object obj = some o ∧
    (owner = obj ∨ (m.chainOf o).link0 = some owner ∨ (m.chainOf o).link1 = some owner)

/-- A location that is recorded is the first the shapes of the chain describe. -/
def RecordsByShape (m : Machine) (obj : Nat) (key : PropKey) (at_ : Nat × Nat) : Prop :=
  m.InReach obj at_.1 →
    ∃ attrs, m.shapeWalk key 3 (some obj) = some (at_.1, .data key at_.2 attrs)

/-- No object up to the first one whose shape describes the key has a present
dictionary entry for it. -/
def EntryFree (m : Machine) (key : PropKey) : Nat → Option Nat → Prop
  | _, none | 0, some _ => True
  | levels + 1, some i => ∀ o, m.object i = some o → Plain o.kind →
      m.presentEntry i o key = none ∧
        (m.lookupProperty o key = none → EntryFree m key levels o.prototype)

/-- **The condition on a step.** -/
def Meets (m : Machine) (op : Op) : Prop :=
  (∀ obj key found, m.recorded op = some (obj, key, found) →
    ∀ at_ ∈ found, m.RecordsByShape obj key at_) ∧
  match op with
  | .access obj key _ _ => (m.stubAnswer obj key).isSome → m.EntryFree key 3 (some obj)
  | .heap .forceCollect => m.cache.generation + 1 < 2 ^ 64
  | _ => True

/-! ## §3 A stub answer is the uncached answer -/

theorem lookup_of_answers {n : Nat} (h : m.heap.Answers o.shape key (.slot n)) :
    ∃ attrs, m.lookupProperty o key = some (.data key n attrs) := by
  obtain ⟨-, s, hs, attrs, hfind⟩ := h
  refine ⟨attrs, ?_⟩
  unfold lookupProperty
  rw [hs, Option.bind_some, Shape.findDescriptor_eq]
  exact hfind

theorem lookup_of_absent (h : m.heap.Answers o.shape key .absent) :
    m.lookupProperty o key = none := by
  obtain ⟨-, s, hs, hfind⟩ := h
  unfold lookupProperty
  rw [hs, Option.bind_some, Shape.findDescriptor_eq]
  exact hfind

section Walk

variable {m : Machine} {key : PropKey} {i : Nat} {o : JsObject} {levels : Nat}

theorem freshLookup_skip (hobj : m.object i = some o) (hplain : Plain o.kind)
    (hentry : m.presentEntry i o key = none) (hnone : m.lookupProperty o key = none) {p : Nat}
    (hp : o.prototype = some p) :
    m.freshLookup key (levels + 1) i = m.freshLookup key levels p := by
  have hrecord : m.presentRecord i o key = none := by
    unfold presentRecord
    rw [hnone]
    rfl
  unfold freshLookup
  conv_lhs => rw [walk]
  simp only [hobj, if_neg hplain.1, if_neg hplain.2, hentry, hrecord, hp]

theorem freshLookup_stop (hobj : m.object i = some o) (hproxy : o.kind ≠ .proxy)
    (hentry : Plain o.kind → m.presentEntry i o key = none) {slot : Nat} {attrs : Attrs}
    (hrecord : m.lookupProperty o key = some (.data key slot attrs)) {answer : Outcome}
    (hans : (if o.kind = .moduleNamespace then some (.namespace i)
      else ((m.storage i o slot).filter fun v => !v.isHole).map .value) = some answer) :
    m.freshLookup key (levels + 1) i = some answer := by
  unfold freshLookup
  rw [walk]
  simp only [hobj]
  by_cases hspace : o.kind = .moduleNamespace
  · rw [if_pos hspace] at hans ⊢
    exact hans
  · rw [if_neg hspace] at hans ⊢
    rw [if_neg hproxy, hentry ⟨hproxy, hspace⟩]
    obtain ⟨v, hv, rfl⟩ := Option.map_eq_some_iff.mp hans
    obtain ⟨hcell, hlive⟩ := Option.filter_eq_some_iff.mp hv
    have hpresent : m.presentRecord i o key = some (.data key slot attrs) := by
      unfold presentRecord
      rw [hrecord]
      refine Option.filter_eq_some_iff.mpr ⟨rfl, ?_⟩
      simp only [presentIn, Holed, hcell, Option.any_some]
      exact hlive
    simp only [hpresent, Option.map_some, outcome, readCell, hobj, Option.bind_some, hcell]

end Walk

theorem stubLookupProto_some (hobj : m.object obj = some o) {shape : Nat} {holder slot : Nat}
    (h : m.stubLookupProto obj shape key = some (holder, slot)) :
    ∃ e, m.cache.Current e ∧ e.shape = shape ∧ e.key = key ∧ e.Verifies (m.chainOf o) ∧
      slot = e.slot ∧ ((e.link0 = none ∧ holder = obj) ∨ (e.link0.isSome ∧ holder = e.holder ∧
        ∃ t, m.object e.holder = some t ∧ t.shape = e.holderShape)) := by
  unfold stubLookupProto at h
  rw [hobj] at h
  simp only [] at h
  split at h
  case h_1 => cases h
  case h_2 hit hhit =>
    obtain ⟨e, hcurrent, hshape, hkey, hverify, rfl⟩ := StubCache.lookupProto_some hhit
    refine ⟨e, hcurrent, hshape, hkey, hverify, ?_⟩
    cases hlink : e.link0 with
    | none =>
      simp [hlink] at h
      exact ⟨h.2.symm, Or.inl ⟨rfl, h.1.symm⟩⟩
    | some p =>
      simp [hlink] at h
      obtain ⟨⟨t, ht, hsame⟩, hholder, hslot⟩ := h
      exact ⟨hslot.symm, Or.inr ⟨rfl, hholder.symm, t, ht, hsame⟩⟩

theorem chainOf_link {p : JsObject} (hlink : o.prototype = some i) (hp : m.object i = some p) :
    (m.chainOf o).link1 = p.prototype ∧ (m.chainOf o).midShape = p.shape := by
  simp [chainOf, hlink, hp]

theorem OfKind.object {P : Kind → Prop} (h : OfKind m.heap i P) :
    ∃ o, m.object i = some o ∧ P o.kind := h.2

/-- **A read the stub cache answers is answered as the uncached lookup does.** -/
theorem stubAnswer_fresh (hc : m.Consistent) (hobj : m.object obj = some o) (hplain : Plain o.kind)
    (hfree : m.EntryFree key 3 (some obj)) {answer : Outcome}
    (hans : m.stubAnswer obj key = some answer) {levels : Nat} (hlevels : 3 ≤ levels) :
    m.freshLookup key levels obj = some answer := by
  obtain ⟨n, rfl⟩ : ∃ n, levels = n + 3 := ⟨levels - 3, by omega⟩
  have hshape : m.shapeOf obj = o.shape := by simp [shapeOf, hobj]
  unfold stubAnswer at hans
  rw [hshape] at hans
  split at hans
  case h_1 => cases hans
  case h_2 holder slot hlookup =>
    obtain ⟨e, hcurrent, heshape, rfl, hverify, rfl, hholder⟩ := stubLookupProto_some hobj hlookup
    obtain ⟨hentry, hfree⟩ := hfree o hobj hplain
    have hok := hc.entries e hcurrent
    rcases hholder with ⟨hlink, rfl⟩ | ⟨hlink, rfl, t, ht, htshape⟩
    · -- an own entry: the receiver's own shape answers
      rw [hobj] at hans
      cases hok with
      | own _ hslot =>
        rw [heshape] at hslot
        obtain ⟨attrs, hrecord⟩ := lookup_of_answers hslot
        exact freshLookup_stop hobj hplain.1 (fun _ => hentry) hrecord hans
      | linked hlink' => cases hlink.symm.trans hlink'
      | behind hlink' => cases hlink.symm.trans hlink'
    · rw [ht] at hans
      obtain ⟨hlink0, hlink1, hmidShape⟩ := hverify.2 hlink
      have hchain0 : (m.chainOf o).link0 = o.prototype := rfl
      cases hok with
      | own hlink' => simp [hlink'] at hlink
      | linked hlink' hfront hkind hslot =>
        -- the receiver's shape has nothing, the first link is the holder
        have hproto : o.prototype = some e.holder := by rw [← hchain0, ← hlink0, hlink']
        rw [heshape] at hfront
        have hnone := lookup_of_absent hfront
        rw [freshLookup_skip hobj hplain hentry hnone hproto]
        have hfree := hfree hnone
        rw [hproto] at hfree
        rw [← htshape] at hslot
        obtain ⟨attrs, hrecord⟩ := lookup_of_answers hslot
        obtain ⟨t', ht', hproxy⟩ := hkind.object
        obtain rfl := Option.some.inj (ht.symm.trans ht')
        exact freshLookup_stop ht hproxy (fun hk => (hfree t ht hk).1) hrecord hans
      | @behind mid hlink' hlink1' hfront hmid hplainMid hkind hslot =>
        -- the second link is the holder, the first has nothing either
        have hproto : o.prototype = some mid := by rw [← hchain0, ← hlink0, hlink']
        obtain ⟨p, hp, hpkind⟩ := hplainMid.object
        obtain ⟨hchain1, hchainShape⟩ := chainOf_link hproto hp
        rw [heshape] at hfront
        have hnone := lookup_of_absent hfront
        rw [freshLookup_skip hobj hplain hentry hnone hproto]
        have hfree := hfree hnone
        rw [hproto] at hfree
        obtain ⟨hentryMid, hfree⟩ := hfree p hp hpkind
        rw [hmidShape, hchainShape] at hmid
        have hnoneMid := lookup_of_absent hmid
        have hproto1 : p.prototype = some e.holder := by rw [← hchain1, ← hlink1, hlink1']
        rw [freshLookup_skip hp hpkind hentryMid hnoneMid hproto1]
        have hfree := hfree hnoneMid
        rw [hproto1] at hfree
        rw [← htshape] at hslot
        obtain ⟨attrs, hrecord⟩ := lookup_of_answers hslot
        obtain ⟨t', ht', hproxy⟩ := hkind.object
        obtain rfl := Option.some.inj (ht.symm.trans ht')
        exact freshLookup_stop ht hproxy (fun hk => (hfree t ht hk).1) hrecord hans

/-! ## §4 What a record writes -/

theorem shapeWalk_end {levels : Nat} :
    ∀ {x : Option Nat} {owner : Nat} {d : Descriptor},
      m.shapeWalk key levels x = some (owner, d) →
        ∃ o, m.object owner = some o ∧ o.kind ≠ .proxy ∧ m.lookupProperty o key = some d := by
  induction levels with
  | zero => intro x owner d h; cases x <;> cases h
  | succ levels ih =>
    intro x owner d h
    cases x with
    | none => cases h
    | some i =>
      simp only [shapeWalk] at h
      split at h
      case h_1 => cases h
      case h_2 o ho =>
        split at h
        case isTrue => cases h
        case isFalse hproxy =>
          split at h
          case h_1 d' hd =>
            cases h
            exact ⟨o, ho, hproxy, hd⟩
          case h_2 =>
            split at h
            · cases h
            · exact ih h

theorem shapeWalk_behind {levels owner : Nat} {d : Descriptor}
    (h : m.shapeWalk key (levels + 1) (some i) = some (owner, d)) (hne : owner ≠ i) :
    ∃ o, m.object i = some o ∧ Plain o.kind ∧ m.lookupProperty o key = none ∧
      m.shapeWalk key levels o.prototype = some (owner, d) := by
  simp only [shapeWalk] at h
  split at h
  case h_1 => cases h
  case h_2 o ho =>
    split at h
    case isTrue => cases h
    case isFalse hproxy =>
      split at h
      case h_1 =>
        cases h
        exact absurd rfl hne
      case h_2 hnone =>
        split at h
        case isTrue => cases h
        case isFalse hspace => exact ⟨o, ho, ⟨hproxy, hspace⟩, hnone, h⟩

section Record

variable {m : Machine} (hc : m.Consistent) {i : Nat} {o : JsObject} {key : PropKey}

include hc in
theorem shape_live (halive : m.heap.isAlive (.objects, i) = true) (hobj : m.object i = some o) :
    m.heap.isAlive (.shapes, o.shape) = true :=
  hc.sound.roots _ (shapeRoot_mem (hc.shaped i o halive hobj))

include hc in
theorem prototype_live (halive : m.heap.isAlive (.objects, i) = true) (hobj : m.object i = some o)
    {p : Nat} (hp : o.prototype = some p) : m.heap.isAlive (.objects, p) = true := by
  refine hc.sound.cells .objects i o halive hobj _ (List.mem_append_left _ ?_)
  exact (mem_trace_object o _).mpr (by simp [mem_traceHandle, hp])

include hc in
theorem answers_absent (halive : m.heap.isAlive (.objects, i) = true) (hobj : m.object i = some o)
    (hnone : m.lookupProperty o key = none) : m.heap.Answers o.shape key .absent := by
  have hshape := shape_live hc halive hobj
  have hlt : o.shape < (m.heap.spaces .shapes).slots.length := SpaceState.isAlive_lt hshape
  have hs : m.heap.shapeAt o.shape = some (m.heap.spaces .shapes).slots[o.shape] :=
    List.getElem?_eq_getElem hlt
  refine ⟨hshape, _, hs, ?_⟩
  unfold lookupProperty at hnone
  rw [hs, Option.bind_some, Shape.findDescriptor_eq] at hnone
  exact hnone

include hc in
theorem answers_slot (halive : m.heap.isAlive (.objects, i) = true) (hobj : m.object i = some o)
    {slot : Nat} {attrs : Attrs} (hdata : m.lookupProperty o key = some (.data key slot attrs)) :
    m.heap.Answers o.shape key (.slot slot) := by
  obtain ⟨s, hs, hfind⟩ := Option.bind_eq_some_iff.mp hdata
  rw [Shape.findDescriptor_eq] at hfind
  exact ⟨shape_live hc halive hobj, s, hs, attrs, hfind⟩

include hc in
/-- **An entry made from the first shape record keeps its promise.** -/
theorem entryOk_record {obj owner slot : Nat} (halive : m.heap.isAlive (.objects, obj) = true)
    (hobj : m.object obj = some o) (hrecord : m.RecordsByShape obj key (owner, slot))
    {stamp : Nat} {protoGen : BitVec 64} {chain : Chain}
    (hchain : (owner = obj ∧ chain.link0 = none) ∨
      (owner ≠ obj ∧ chain = m.chainOf o ∧ (chain.link0 = some owner ∨ chain.link1 = some owner))) :
    EntryOk m.heap ⟨stamp, m.shapeOf obj, key, slot, owner, m.shapeOf owner, chain.link0,
      chain.link1, chain.midShape, protoGen⟩ := by
  have hshape : m.shapeOf obj = o.shape := by simp [shapeOf, hobj]
  have hreach : m.InReach obj owner := by
    refine ⟨o, hobj, ?_⟩
    rcases hchain with ⟨rfl, -⟩ | ⟨-, rfl, hlinks⟩
    · exact Or.inl rfl
    · exact Or.inr hlinks
  obtain ⟨attrs, hwalk⟩ := hrecord hreach
  obtain ⟨t, ht, hproxy, hdata⟩ := shapeWalk_end hwalk
  have htshape : m.shapeOf owner = t.shape := by simp [shapeOf, ht]
  rw [hshape, htshape]
  rcases hchain with ⟨rfl, hnone⟩ | ⟨hne, rfl, hlinks⟩
  · obtain rfl := Option.some.inj (hobj.symm.trans ht)
    exact .own hnone (answers_slot hc halive hobj hdata)
  · obtain ⟨o', ho', hplain, habsent, hwalk⟩ := shapeWalk_behind hwalk hne
    obtain rfl := Option.some.inj (hobj.symm.trans ho')
    have hfront := answers_absent hc halive hobj habsent
    have hchain0 : (m.chainOf o).link0 = o.prototype := rfl
    cases hp : o.prototype with
    | none => simp [shapeWalk, hp] at hwalk
    | some p =>
      have hplive := prototype_live hc halive hobj hp
      by_cases hpo : owner = p
      · subst hpo
        exact .linked (hchain0.trans hp) hfront ⟨hplive, t, ht, hproxy⟩
          (answers_slot hc hplive ht hdata)
      · rw [hp] at hwalk
        obtain ⟨mid, hmid, hmidPlain, hmidAbsent, hwalk⟩ := shapeWalk_behind hwalk hpo
        obtain ⟨hlink1, hmidShape⟩ := chainOf_link hp hmid
        have hmp : mid.prototype = some owner := by
          rcases hlinks with hlinks | hlinks
          · rw [hchain0, hp] at hlinks
            exact absurd (Option.some.inj hlinks).symm hpo
          · rw [← hlink1, hlinks]
        refine .behind (hchain0.trans hp) (hlink1.trans hmp) hfront ?_ ⟨hplive, mid, hmid, hmidPlain⟩
          ⟨prototype_live hc hplive hmid hmp, t, ht, hproxy⟩
          (answers_slot hc (prototype_live hc hplive hmid hmp) ht hdata)
        rw [hmidShape]
        exact answers_absent hc hplive hmid hmidAbsent

end Record

/-! ## §5 The step -/

def withCache (m : Machine) (c : StubCache) : Machine := { m with cache := c }

theorem shapeWalk_withCache (m : Machine) (c : StubCache) (key : PropKey) :
    ∀ (levels : Nat) (x : Option Nat),
      (m.withCache c).shapeWalk key levels x = m.shapeWalk key levels x := by
  intro levels
  induction levels with
  | zero => intro x; cases x <;> rfl
  | succ levels ih =>
    intro x
    cases x with
    | none => rfl
    | some i =>
      simp only [shapeWalk, ih]
      rfl

theorem RecordsByShape.withCache {at_ : Nat × Nat} (h : m.RecordsByShape obj key at_)
    (c : StubCache) :
    (m.withCache c).RecordsByShape obj key at_ := by
  intro hreach
  obtain ⟨attrs, hwalk⟩ := h hreach
  exact ⟨attrs, (shapeWalk_withCache m c key 3 _).trans hwalk⟩

theorem stubRecordProto_spec (hc : m.Consistent) (halive : m.heap.isAlive (.objects, obj) = true)
    {at_ : Nat × Nat} (hrecord : m.RecordsByShape obj key at_) :
    ∃ c, m.stubRecordProto obj (m.shapeOf obj) key at_.1 (m.shapeOf at_.1) at_.2 = m.withCache c ∧
      (m.withCache c).Consistent := by
  have written (chain : Chain) (hok : ∀ stamp protoGen, EntryOk m.heap ⟨stamp, m.shapeOf obj, key,
      at_.2, at_.1, m.shapeOf at_.1, chain.link0, chain.link1, chain.midShape, protoGen⟩) :
      (m.withCache (m.cache.recordProto (m.shapeOf obj) key at_.1 (m.shapeOf at_.1) at_.2
        chain)).Consistent := by
    refine ⟨hc.sound, hc.shaped, StubCache.stamped_place hc.stamped rfl, fun e he => ?_⟩
    rcases StubCache.current_place he with hold | rfl
    · exact hc.entries e hold
    · exact hok _ _
  unfold stubRecordProto
  cases hobj : m.object obj with
  | none => exact ⟨m.cache, rfl, hc⟩
  | some o =>
    simp only []
    by_cases howner : at_.1 = obj
    · rw [if_pos howner]
      refine ⟨_, rfl, written _ fun stamp protoGen => ?_⟩
      exact entryOk_record hc halive hobj hrecord (Or.inl ⟨howner, rfl⟩)
    · rw [if_neg howner]
      by_cases hlinks : (m.chainOf o).link0 = some at_.1 ∨ (m.chainOf o).link1 = some at_.1
      · rw [if_pos hlinks]
        refine ⟨_, rfl, written _ fun stamp protoGen => ?_⟩
        exact entryOk_record hc halive hobj hrecord (Or.inr ⟨howner, rfl, hlinks⟩)
      · rw [if_neg hlinks]
        exact ⟨m.cache, rfl, hc⟩

theorem recordAll_consistent {found : List (Nat × Nat)} :
    ∀ {m : Machine}, m.Consistent → m.heap.isAlive (.objects, obj) = true →
      (∀ at_ ∈ found, m.RecordsByShape obj key at_) → (m.recordAll obj key found).Consistent := by
  induction found with
  | nil => intro m hc _ _; exact hc
  | cons at_ rest ih =>
    intro m hc halive hall
    obtain ⟨c, heq, hnext⟩ := stubRecordProto_spec hc halive (hall at_ List.mem_cons_self)
    unfold recordAll at ih ⊢
    rw [List.foldl_cons, heq]
    exact ih hnext halive fun other hmem => (hall other (List.mem_cons_of_mem _ hmem)).withCache c

theorem step_stable (hs : Heap.Sound h) {op : GcOp} (hkept : h.Kept op) (hlayout : KeepsLayout h op)
    (hcollect : op ≠ .forceCollect) : Stable h (h.step op) := by
  cases htarget : op.target with
  | none => exact (step_grows hs.ledgers hkept htarget hcollect).stable
  | some r =>
    cases op with
    | write space i value =>
      have hne (hspace : space ≠ .shapes) (j : Nat) : ((space, i) : Ref) ≠ (.shapes, j) :=
        fun heq => hspace (congrArg Prod.fst heq)
      have hshapes : space ≠ .shapes := by
        rintro rfl
        exact hlayout
      refine ⟨fun r hr => (isAlive_write h _ _ _ r).trans hr, fun j key p ⟨hj, s, hs, hp⟩ => ?_,
        fun j o hj ho => ?_⟩
      · refine ⟨(isAlive_write h _ _ _ _).trans hj, s, ?_, hp⟩
        exact (get_write_of_ne h value (hne hshapes j)).trans hs
      · by_cases heq : ((space, i) : Ref) = (.objects, j)
        · obtain ⟨rfl, rfl⟩ := Prod.mk.inj heq
          obtain ⟨-, old, hold, hkind⟩ := hlayout
          obtain rfl := Option.some.inj (ho.symm.trans hold)
          exact ⟨value, get_write_self hj value, hkind⟩
        · exact ⟨o, (get_write_of_ne h value heq).trans ho, rfl⟩
    | bindShape obj shape =>
      have hsame (j : Nat) : (h.bindShape obj shape).shapeAt j = h.shapeAt j := by
        unfold bindShape
        split
        · exact get_write_of_ne h _ (shape_ne_object j obj).symm
        · rfl
      refine ⟨fun r hr => (isAlive_bindShape h _ _ r).trans hr, fun j key p ⟨hj, s, hs, hp⟩ => ?_,
        fun j o hj ho => ?_⟩
      · exact ⟨(isAlive_bindShape h _ _ _).trans hj, s, (hsame j).trans hs, hp⟩
      · have hlive : (h.bindShape obj shape).isAlive (.objects, j) = true :=
          (isAlive_bindShape h _ _ _).trans hj
        change ∃ o', (h.bindShape obj shape).get (.objects, j) = some o' ∧ o'.kind = o.kind
        unfold bindShape
        split
        case h_1 old hold =>
          by_cases heq : obj = j
          · subst heq
            obtain rfl := Option.some.inj (ho.symm.trans hold)
            exact ⟨_, get_write_self hj _, rfl⟩
          · have hne : ((.objects, obj) : Ref) ≠ (.objects, j) := fun h => heq (congrArg Prod.snd h)
            exact ⟨o, (get_write_of_ne h _ hne).trans ho, rfl⟩
        case h_2 => exact ⟨o, ho, rfl⟩
    | _ => cases htarget

theorem storesObject_of_keepsLayout {op : GcOp} (hlayout : KeepsLayout h op) :
    op.StoresObject fun o => o.shape ∈ h.shapeRoots := by
  cases op with
  | alloc space value =>
    cases space with
    | objects => exact hlayout
    | _ => trivial
  | write space i value =>
    cases space with
    | objects => exact hlayout.1
    | _ => trivial
  | _ => trivial

theorem consistent_shapes (hc : m.Consistent) (hstep : ShapeStep m.heap h') :
    ({ m with heap := h' } : Machine).Consistent := by
  refine ⟨hstep.sound, fun i o halive hget => ?_, hc.stamped,
    fun e he => (hc.entries e he).mono hstep.stable⟩
  obtain ⟨hlive, hold⟩ := hstep.objects i o halive hget
  change o.shape ∈ h'.shapeRoots
  rw [hstep.shapeRoots]
  exact hc.shaped i o hlive hold

theorem consistent_withShapes (hc : m.Consistent) {result : Option (Heap × Nat)}
    (hstep : ∀ h' i, result = some (h', i) → ShapeStep m.heap h') :
    (m.withShapes result).Consistent := by
  cases result with
  | none => exact hc
  | some r => exact consistent_shapes hc (hstep r.1 r.2 rfl)

theorem heap_consistent (hc : m.Consistent) {call : GcOp} (hkept : m.heap.Kept call)
    (hlayout : KeepsLayout m.heap call)
    (hroom : call = .forceCollect → m.cache.generation + 1 < 2 ^ 64) :
    (m.step (.heap call)).Consistent := by
  have hsound := step_sound hc.sound hkept
  by_cases hcollect : call = .forceCollect
  · subst hcollect
    refine ⟨hsound, fun i o halive hget => ?_, StubCache.stamped_clear hc.stamped (hroom rfl),
      fun e he => absurd he (StubCache.not_current_clear hc.stamped (hroom rfl) e)⟩
    have hreach : m.heap.Reachable (.objects, i) := (isAlive_forceCollect hc.sound _).mp halive
    have hsame : m.heap.get (.objects, i) = some o :=
      (get_forceCollect_object hc.sound hreach).symm.trans hget
    exact hc.shaped i o (hc.sound.alive_of_reachable hreach) hsame
  · have hcache : m.cacheAfter call = m.cache := by
      cases call <;> first | rfl | exact absurd rfl hcollect
    have hstable := step_stable hc.sound hkept hlayout hcollect
    refine ⟨hsound, ?_, ?_, fun e he => ?_⟩
    · exact step_objects (P := fun h o => o.shape ∈ h.shapeRoots) hc.sound.ledgers hkept hcollect
        (fun o ho => shapeRoots_mono m.heap call ho) (fun o shape _ hroot => hroot)
        (storesObject_of_keepsLayout hlayout) hc.shaped
    · change (m.cacheAfter call).Stamped
      rw [hcache]
      exact hc.stamped
    · change (m.cacheAfter call).Current e at he
      rw [hcache] at he
      exact (hc.entries e he).mono hstable

/-- **Step rule.** -/
theorem step_consistent (hc : m.Consistent) {op : Op} (hkept : m.Kept op) (hmeets : m.Meets op) :
    (m.step op).Consistent := by
  have read {obj : Nat} {key : PropKey} {found : List (Nat × Nat)}
      (hrec : m.recorded op = some (obj, key, found))
      (halive : m.heap.isAlive (.objects, obj) = true) :
      (m.recordAll obj key found).Consistent :=
    recordAll_consistent hc halive (hmeets.1 obj key found hrec)
  cases op with
  | heap call =>
    refine heap_consistent hc hkept.1 hkept.2 ?_
    rintro rfl
    exact hmeets.2
  | addProperty parent key attrs =>
    exact consistent_withShapes hc fun h' i hcall =>
      addProperty_step hc.sound hkept.1 hkept.2 hcall
  | updateDataAttrs parent key attrs =>
    exact consistent_withShapes hc fun h' i hcall =>
      updateDataAttrs_step hc.sound hkept.1 hkept.2 hcall
  | defineAccessor parent key getter setter attrs =>
    exact consistent_withShapes hc fun h' i hcall =>
      defineAccessor_step hc.sound hkept.1 hkept.2 hcall
  | bumpProtoGeneration => exact ⟨hc.sound, hc.shaped, hc.stamped, hc.entries⟩
  | access obj key cachedSlot levels => exact read rfl hkept.1
  | ordinaryGet obj key levels => exact read rfl hkept
  | ordinaryHasProperty obj key levels => exact read rfl hkept

theorem consistent_new (global : Option Nat) : (new global).Consistent :=
  ⟨sound_new, fun _ _ halive _ => (by cases halive), StubCache.stamped_new,
    fun e he => absurd he (StubCache.not_current_new e)⟩

/-! ## §6 Any run -/

/-- **In a run whose steps meet the condition, whatever the stub cache answers a
read with is what the uncached lookup finds then.** -/
theorem stub_reads_fresh (global : Option Nat) (ops : List Op)
    (hkept : Lib.StepsMeet step Kept (new global) ops)
    (hmeets : Lib.StepsMeet step Meets (new global) ops)
    (before after : List Op) (obj : Nat) (key : PropKey) (cachedSlot : Option Nat) (levels : Nat)
    (heq : ops = before ++ .access obj key cachedSlot levels :: after) (answer : Outcome)
    (hans : (Lib.run step (new global) before).stubAnswer obj key = some answer) :
    ∀ n, 3 ≤ n → (Lib.run step (new global) before).freshLookup key n obj = some answer := by
  intro n hn
  have hkeptAt := hkept.at_step heq
  have hmeetsAt := hmeets.at_step heq
  rw [heq, Lib.stepsMeet_append] at hkept hmeets
  have hc : (Lib.run step (new global) before).Consistent :=
    Lib.run_invariant (I := Consistent) (fun m op hinv hop => step_consistent hinv hop.1 hop.2)
      (consistent_new global) (Lib.stepsMeet_and hkept.1 hmeets.1)
  obtain ⟨-, o, hobj, hplain⟩ := hkeptAt
  exact stubAnswer_fresh hc hobj hplain (hmeetsAt.2 (by rw [hans]; rfl)) hans hn

/-! ## §7 A stale read -/

/-- `{ x: 7 }`, `x` being the string `0` and its shape the first child. -/
def literal : JsObject := { (default : JsObject) with shape := 2, properties := [.smi 7] }

def literalRead : List Op :=
  [.heap (.alloc .strings ⟨.latin1 [0x78], none⟩), .heap (.alloc .objects (default : JsObject)),
    .heap (.alloc .objects (default : JsObject)), .addProperty 0 (.string 0) .default,
    .heap (.bindShape 0 2), .heap (.write .objects 0 literal), .access 0 (.string 0) none 3]

/-- `x` redefined with the object `1` for its getter. -/
def redefine : Op :=
  .heap (.write .objects 0 (convertKeyToAccessor literal 1 (.string 0) .default (some 1) none))

theorem cellLive_object (ho : ∀ r ∈ trace o, h.isAlive r = true) :
    h.CellLive .objects o := by
  intro r hr
  rcases List.mem_append.mp hr with hr | hr
  · exact ho r hr
  · cases hr

theorem trace_default : trace (default : JsObject) = [] := by
  simp [trace, JsObject.dictEntries, traceHandle, default, ElementsStorage.new]

theorem trace_literal : trace literal = [] := by
  simp [trace, literal, JsObject.dictEntries, traceHandle, JsValue.asSlot, default,
    ElementsStorage.new]

theorem trace_redefined : trace (convertKeyToAccessor literal 1 (.string 0) .default (some 1) none) =
    [(.objects, 1)] := by
  simp [trace, convertKeyToAccessor, convertToDictionary, fileEntry, literal, JsObject.dictEntries,
    traceHandle, JsValue.asSlot, default, ElementsStorage.new]

theorem literalRead_kept : Lib.StepsMeet step Kept (new none) literalRead := by
  have hdefault (h : Heap) : h.CellLive .objects (default : JsObject) :=
    cellLive_object fun r hr => by
      rw [trace_default] at hr
      cases hr
  have hliteral (h : Heap) : h.CellLive .objects literal :=
    cellLive_object fun r hr => by
      rw [trace_literal] at hr
      cases hr
  have hstring (h : Heap) : h.CellLive .strings (⟨.latin1 [0x78], none⟩ : V12Str) := fun r hr => by
    cases hr
  have hroot : 0 ∈ [0, 1] := by decide
  refine ⟨⟨hstring _, trivial⟩, ⟨hdefault _, hroot⟩, ⟨hdefault _, hroot⟩,
    ⟨by decide, by decide, by rintro g ⟨⟩, by rintro w ⟨⟩⟩, ⟨⟨by decide, by decide⟩, trivial⟩,
    ⟨⟨by decide, hliteral _⟩, by decide, _, rfl, rfl⟩, ⟨by decide, _, rfl, by decide⟩, trivial⟩

theorem meets_of_unrecorded {call : GcOp} (h : call ≠ .forceCollect) :
    m.Meets (.heap call) := by
  refine ⟨fun obj key found hrec => (by cases hrec), ?_⟩
  split
  · rename_i heq
    cases heq
  · rename_i heq
    exact absurd (Op.heap.inj heq) h
  · trivial

theorem literalRead_meets : Lib.StepsMeet step Meets (new none)
    (literalRead ++ [.access 0 (.string 0) none 3]) := by
  refine ⟨meets_of_unrecorded (by rintro ⟨⟩), meets_of_unrecorded (by rintro ⟨⟩),
    meets_of_unrecorded (by rintro ⟨⟩), ⟨fun _ _ _ hrec => (by cases hrec), trivial⟩,
    meets_of_unrecorded (by rintro ⟨⟩), meets_of_unrecorded (by rintro ⟨⟩),
    ⟨fun obj key found hrec at_ hat _ => ?_, fun hsome => ?_⟩,
    ⟨fun obj key found hrec at_ hat _ => ?_, fun _ o ho _ => ?_⟩, trivial⟩
  · cases hrec
    have hone : at_ ∈ [((0, 0) : Nat × Nat)] := hat
    obtain rfl := List.mem_singleton.mp hone
    exact ⟨.default, by decide⟩
  · exact absurd hsome (by decide)
  · cases hrec
    have hempty : at_ ∈ ([] : List (Nat × Nat)) := hat
    cases hempty
  · have hliteral : some literal = some o := ho
    obtain rfl := Option.some.inj hliteral
    exact ⟨by decide, fun hnone => absurd hnone (by decide)⟩

/-- The literal read twice: the second read is the stub's, and the fresh one. -/
theorem stub_reads_fresh_literal :
    (Lib.run step (new none) literalRead).freshLookup (.string 0) 3 0 = some (.value (.smi 7)) := by
  refine stub_reads_fresh none (literalRead ++ [.access 0 (.string 0) none 3]) ?_ ?_ literalRead []
    0 (.string 0) none 3 rfl (.value (.smi 7)) (by decide) 3 (Nat.le_refl 3)
  · refine Lib.stepsMeet_append.mpr ⟨literalRead_kept, ⟨by decide, _, rfl, by decide⟩, trivial⟩
  · exact literalRead_meets

/-- **After the redefinition the stub cache still serves the data value.** -/
theorem stub_serves_redefined :
    ¬ (∀ ops, Lib.StepsMeet step Kept (new none) ops → ∀ before after obj key cachedSlot levels,
      ops = before ++ .access obj key cachedSlot levels :: after → ∀ answer,
        (Lib.run step (new none) before).stubAnswer obj key = some answer → ∀ n, 3 ≤ n →
          (Lib.run step (new none) before).freshLookup key n obj = some answer) := by
  intro hall
  have hkept : Lib.StepsMeet step Kept (new none)
      (literalRead ++ [redefine, .access 0 (.string 0) none 3]) := by
    refine Lib.stepsMeet_append.mpr ⟨literalRead_kept, ⟨⟨by decide, ?_⟩, by decide, _, rfl, rfl⟩,
      ⟨by decide, _, rfl, by decide⟩, trivial⟩
    refine cellLive_object fun r hr => ?_
    rw [trace_redefined] at hr
    rw [List.mem_singleton.mp hr]
    decide
  have hfresh := hall _ hkept (literalRead ++ [redefine]) [] 0 (.string 0) none 3 (by simp)
    (.value (.smi 7)) (by decide) 3 (by decide)
  revert hfresh
  decide

end Machine

end V12.Interp
