/-
V12.Named.CopyingTheorems — which objects a spread or a rest copies.

On the source, the list of the copies is the list of the own enumerable
properties exactly if the source is plain (`copyReads_iff`). On the target, a
copy defines its property and no other exactly if the target is ready for it
(`defines_iff`).
-/
import V12.Named.Copying
import V12.Named.Agreement

namespace V12.Named

open V12.Heap V12.Interp

namespace Store

/-! ## §1 One copy on the target -/

/-- A shape space whose edges add their keys, with the object's shape in it. -/
structure Housed (s : Store) : Prop where
  edges : s.tree.EdgesAddKeys
  valid : s.object.shape < s.tree.shapes.length

def ends (s : Store) : Shown → OwnRead
  | .cell i =>
    match s.cell i with
    | some v => .value v
    | none => .fault
  | .getter g => .getter g

theorem readSlot_ends (s : Store) (slot : Nat) :
    s.readSlot slot = s.ends (.cell (s.slotIndex slot)) := rfl

theorem icOwn_shown (s : Store) (k : PropKey) :
    s.icOwn k = (s.shownBy (s.record k) k).map s.ends := by
  unfold icOwn shownBy
  cases s.record k with
  | none =>
    cases s.entry k with
    | none => rfl
    | some e => by_cases hacc : e.isAccessor <;> by_cases hhole : s.holed e.slot <;>
        simp [hacc, hhole, readSlot_ends, ends]
  | some d =>
    cases d with
    | accessor _ getter _ _ =>
      cases s.entry k with
      | none => rfl
      | some e => by_cases hacc : e.isAccessor <;> by_cases hhole : s.holed e.slot <;>
          simp [hacc, hhole, readSlot_ends, ends]
    | data _ slot _ =>
      by_cases hslot : s.holed slot
      · cases s.entry k with
        | none => simp [hslot]
        | some e => by_cases hacc : e.isAccessor <;> by_cases hhole : s.holed e.slot <;>
            simp [hacc, hhole, hslot, readSlot_ends, ends]
      · cases s.entry k with
        | none => simp [hslot, readSlot_ends]
        | some e => by_cases hacc : e.isAccessor <;> by_cases hhole : s.holed e.slot <;>
            simp [hacc, hhole, hslot, readSlot_ends, ends]

theorem lookup_addProperty {s : Store} {key : PropKey} {r : ShapeTree × Nat}
    (h : s.tree.addProperty s.object.shape key .default = some r) (k : PropKey) :
    r.1.lookup r.2 k = s.recordAfter key k := by
  obtain ⟨p, hp, ⟨child, he, rfl⟩ | ⟨he, rfl⟩⟩ := ShapeTree.addProperty_cases h
  · rw [recordAfter, ShapeTree.edge?_eq hp, he]
  · have hrecord : s.record k = findIn p.descriptors.asSlice k := ShapeTree.lookup_parent hp
    have hnum : s.numOwn = p.numOwn := ShapeTree.numOwn_of_get? hp
    rw [recordAfter, ShapeTree.edge?_eq hp, he, hrecord, hnum]
    dsimp only
    rw [show (s.tree.newChild s.object.shape key .default _ _).2 = s.tree.shapes.length from rfl,
      ShapeTree.lookup_newChild_self (ShapeTree.lt_of_get? hp), Descriptors.asSlice_push,
      findIn_append_singleton]
    rfl

section Copy

variable {s : Store} (hs : Housed s) (key : PropKey) (val : JsValue)

include hs

theorem copyProperty_eq :
    ∃ r, s.tree.addProperty s.object.shape key .default = some r ∧
      s.copyProperty key val = (s.bindShape r).pushCell val := by
  obtain ⟨r, hr⟩ := Option.ne_none_iff_exists'.mp (addProperty_valid hs.valid key .default)
  refine ⟨r, hr, ?_⟩
  rw [copyProperty, hr]

theorem Housed.copyProperty : Housed (s.copyProperty key val) := by
  obtain ⟨r, hr, heq⟩ := copyProperty_eq hs key val
  have hx := ShapeTree.extends_addProperty hs.edges hr
  have hbind := ShapeTree.keepsLayout_bind r.1 r.2
  rw [heq]
  refine ⟨?_, Nat.lt_of_lt_of_le hx.valid hbind.length⟩
  exact ShapeTree.EdgesAddKeys.of_keepsLayout hx.edges hbind (ShapeTree.edgesFrom_bind _ _)

theorem record_copyProperty (k : PropKey) :
    (s.copyProperty key val).record k = s.recordAfter key k := by
  obtain ⟨r, hr, heq⟩ := copyProperty_eq hs key val
  rw [heq, ← lookup_addProperty hr]
  exact (ShapeTree.sameShape_bind r.1 r.2 r.2).lookup k

theorem entry_copyProperty (k : PropKey) : (s.copyProperty key val).entry k = s.entry k := by
  obtain ⟨r, -, heq⟩ := copyProperty_eq hs key val
  rw [heq]
  rfl

theorem slotIndex_copyProperty (slot : Nat) :
    (s.copyProperty key val).slotIndex slot = s.slotIndex slot := by
  obtain ⟨r, -, heq⟩ := copyProperty_eq hs key val
  rw [heq]
  rfl

theorem cell_copyProperty_size : (s.copyProperty key val).cell s.size = some val := by
  obtain ⟨r, -, heq⟩ := copyProperty_eq hs key val
  rw [heq]
  exact List.getElem?_concat_length

theorem cell_copyProperty_of_ne {i : Nat} (hi : i ≠ s.size) :
    (s.copyProperty key val).cell i = s.cell i := by
  obtain ⟨r, -, heq⟩ := copyProperty_eq hs key val
  rw [heq]
  show (s.object.properties ++ [val])[i]? = s.object.properties[i]?
  rcases Nat.lt_or_gt_of_ne hi with hlt | hgt
  · exact List.getElem?_append_left hlt
  · rw [List.getElem?_eq_none (by rw [List.length_append]; exact hgt),
      List.getElem?_eq_none (Nat.le_of_lt hgt)]

theorem holed_copyProperty (hval : val.isHole = false) (slot : Nat) :
    (s.copyProperty key val).holed slot = s.holed slot := by
  unfold holed
  rw [slotIndex_copyProperty hs]
  by_cases hi : s.slotIndex slot = s.size
  · have hnone : s.cell s.size = none := List.getElem?_eq_none (Nat.le_refl _)
    rw [hi, cell_copyProperty_size hs, hnone]
    exact hval
  · rw [cell_copyProperty_of_ne hs key val hi]

theorem shownBy_copyProperty (hval : val.isHole = false) (record : Option Descriptor)
    (k : PropKey) : (s.copyProperty key val).shownBy record k = s.shownBy record k := by
  unfold shownBy
  simp only [entry_copyProperty hs, slotIndex_copyProperty hs, holed_copyProperty hs key val hval]

theorem icOwn_copyProperty (hval : val.isHole = false) (k : PropKey) :
    (s.copyProperty key val).icOwn k =
      (s.shownBy (s.recordAfter key k) k).map (s.copyProperty key val).ends := by
  rw [icOwn_shown, record_copyProperty hs, shownBy_copyProperty hs key val hval]

theorem ends_copyProperty {x : Shown} (hx : x ≠ .cell s.size) :
    (s.copyProperty key val).ends x = s.ends x := by
  cases x with
  | getter g => rfl
  | cell i =>
    have hi : i ≠ s.size := fun heq => hx (congrArg Shown.cell heq)
    simp only [ends, cell_copyProperty_of_ne hs key val hi]

theorem ends_copyProperty_size :
    (s.copyProperty key val).ends (.cell s.size) = .value val := by
  simp only [ends, cell_copyProperty_size hs]

theorem slot_recordAfter {k : PropKey} (hk : k ≠ key) :
    (s.recordAfter key k).map Descriptor.slot = (s.record k).map Descriptor.slot := by
  obtain ⟨r, hr⟩ := Option.ne_none_iff_exists'.mp (addProperty_valid hs.valid key .default)
  have hx := ShapeTree.extends_addProperty hs.edges hr
  have hlayout := hx.adds.others k hk
  rw [hx.keeps.layout hs.valid] at hlayout
  rw [← lookup_addProperty hr]
  exact hlayout

end Copy

theorem ends_size (s : Store) : s.ends (.cell s.size) = .fault := by
  have hnone : s.cell s.size = none := List.getElem?_eq_none (Nat.le_refl _)
  simp only [ends, hnone]

theorem shownBy_eq_of_ends {s : Store} {a b : Option Descriptor} {k : PropKey} {f : Shown → OwnRead}
    (hslot : a.map Descriptor.slot = b.map Descriptor.slot)
    (hf : ∀ g, f (.getter g) = .getter g)
    (h : (s.shownBy a k).map f = (s.shownBy b k).map s.ends) : s.shownBy a k = s.shownBy b k := by
  unfold shownBy at h ⊢
  cases a with
  | none =>
    cases b with
    | none => rfl
    | some d => cases hslot
  | some d =>
    cases b with
    | none => cases hslot
    | some d' =>
      cases d with
      | data _ slot _ =>
        cases d' with
        | accessor _ _ _ _ => cases hslot
        | data _ slot' _ =>
          simp only [Option.map_some, Descriptor.slot, Option.some.injEq] at hslot
          rw [hslot]
      | accessor _ getter _ _ =>
        cases d' with
        | data _ _ _ => cases hslot
        | accessor _ getter' _ _ =>
          have hgetter : some (f (.getter getter)) = some (s.ends (.getter getter')) →
              getter = getter' := by
            intro heq
            rw [hf] at heq
            injection heq with heq
            injection heq
          cases hentry : s.entry k with
          | none =>
            rw [hentry] at h
            rw [hgetter h]
          | some e =>
            rw [hentry] at h
            dsimp only at h ⊢
            by_cases hacc : e.isAccessor = true
            · rw [if_pos hacc, if_pos hacc]
            · rw [if_neg hacc, if_neg hacc]
              rw [if_neg hacc, if_neg hacc] at h
              by_cases hhole : s.holed e.slot = true
              · rw [if_pos hhole, if_pos hhole] at h
                rw [hgetter h]
              · rw [if_neg hhole, if_neg hhole]

/-- **A copy defines its property and no other exactly if the target is ready.** -/
theorem defines_iff {s : Store} (hs : Housed s) (key : PropKey) : s.Defines key ↔ s.Ready key := by
  constructor
  · intro h
    have hzero := h (.smi 0) rfl
    have hone := h (.smi 1) rfl
    rw [icOwn_copyProperty hs key _ rfl] at hzero hone
    refine ⟨?_, fun k hk => ?_, fun k hk hcell => ?_⟩
    · -- an end that reads as both values is the new cell
      obtain ⟨x, hx, hread⟩ := Option.map_eq_some_iff.mp hzero.1
      obtain ⟨y, hy, hread'⟩ := Option.map_eq_some_iff.mp hone.1
      rw [hx, Option.some.injEq] at hy
      subst hy
      by_cases hsize : x = .cell s.size
      · rw [hx, hsize]
      · rw [ends_copyProperty hs key _ hsize] at hread hread'
        rw [hread] at hread'
        cases hread'
    · have hread := hzero.2 k hk
      rw [icOwn_copyProperty hs key _ rfl, icOwn_shown] at hread
      exact shownBy_eq_of_ends (slot_recordAfter hs key hk) (fun _ => rfl) hread
    · have hread := hzero.2 k hk
      rw [icOwn_copyProperty hs key _ rfl, icOwn_shown] at hread
      rw [shownBy_eq_of_ends (slot_recordAfter hs key hk) (fun _ => rfl) hread, hcell,
        Option.map_some, Option.map_some, ends_copyProperty_size hs, ends_size] at hread
      cases hread
  · intro h val hval
    refine ⟨?_, fun k hk => ?_⟩
    · rw [icOwn_copyProperty hs key val hval, h.next, Option.map_some, ends_copyProperty_size hs]
    · rw [icOwn_copyProperty hs key val hval, icOwn_shown, h.others k hk]
      cases hshown : s.shownBy (s.record k) k with
      | none => rfl
      | some x =>
        have hx : x ≠ .cell s.size := fun heq => h.free k hk (by rw [hshown, heq])
        rw [Option.map_some, Option.map_some, ends_copyProperty hs key val hx]

theorem stepsMeet_defines_iff {s : Store} (hs : Housed s) (cs : List (PropKey × JsValue)) :
    Lib.StepsMeet copyStep (fun s c => s.Defines c.1) s cs ↔
      Lib.StepsMeet copyStep (fun s c => s.Ready c.1) s cs := by
  induction cs generalizing s with
  | nil => exact Iff.rfl
  | cons c cs ih => exact and_congr (defines_iff hs c.1) (ih (hs.copyProperty c.1 c.2))

/-! ## §2 The copies of the source -/

theorem eq_filterMap_iff {α β : Type} {keys : List α} (hnodup : keys.Nodup) (g : α → Option β)
    (cs : List (α × β)) :
    cs = keys.filterMap (fun k => (g k).map fun b => (k, b)) ↔
      (cs.map Prod.fst).Sublist keys ∧ (∀ c ∈ cs, g c.1 = some c.2) ∧
        ∀ k ∈ keys, (g k).isSome = true → k ∈ cs.map Prod.fst := by
  constructor
  · rintro rfl
    refine ⟨?_, fun c hc => ?_, fun k hk hsome => ?_⟩
    · clear hnodup
      induction keys with
      | nil => exact .slnil
      | cons k keys ih =>
        cases hg : g k with
        | none => rw [List.filterMap_cons_none (by rw [hg]; rfl)]; exact ih.cons k
        | some b =>
          rw [List.filterMap_cons_some (b := (k, b)) (by rw [hg]; rfl)]
          exact ih.cons_cons k
    · obtain ⟨k, -, hmap⟩ := List.mem_filterMap.mp hc
      obtain ⟨b, hb, rfl⟩ := Option.map_eq_some_iff.mp hmap
      exact hb
    · obtain ⟨b, hb⟩ := Option.isSome_iff_exists.mp hsome
      exact List.mem_map.mpr ⟨(k, b), List.mem_filterMap.mpr ⟨k, hk, by rw [hb]; rfl⟩, rfl⟩
  · rintro ⟨hsub, hvalue, hall⟩
    induction keys generalizing cs with
    | nil =>
      rw [List.sublist_nil, List.map_eq_nil_iff] at hsub
      exact hsub
    | cons k keys ih =>
      obtain ⟨hk, hkeys⟩ := List.nodup_cons.mp hnodup
      cases hg : g k with
      | none =>
        rw [List.filterMap_cons_none (by rw [hg]; rfl)]
        refine ih hkeys cs ?_ hvalue fun k' hk' => hall k' (List.mem_cons_of_mem k hk')
        rcases List.sublist_cons_iff.mp hsub with hsub | ⟨rest, hrest, -⟩
        · exact hsub
        · -- a pair of `k` would have a value
          obtain ⟨c, cs', rfl, rfl, -⟩ := List.map_eq_cons_iff.mp hrest
          rw [hvalue c List.mem_cons_self] at hg
          cases hg
      | some b =>
        rw [List.filterMap_cons_some (b := (k, b)) (by rw [hg]; rfl)]
        have hmem := hall k List.mem_cons_self (by rw [hg]; rfl)
        rcases List.sublist_cons_iff.mp hsub with hsub | ⟨rest, hrest, hsub⟩
        · exact absurd (hsub.subset hmem) hk
        · obtain ⟨c, cs', rfl, rfl, rfl⟩ := List.map_eq_cons_iff.mp hrest
          have hc : g c.1 = some c.2 := hvalue c List.mem_cons_self
          rw [hg, Option.some.injEq] at hc
          rw [hc, ← ih hkeys cs' hsub (fun c' hc' => hvalue c' (List.mem_cons_of_mem c hc'))]
          intro k' hk' hsome
          rcases List.mem_cons.mp (hall k' (List.mem_cons_of_mem _ hk') hsome) with rfl | hin
          · exact absurd hk' hk
          · exact hin

theorem nodup_firstPlaces (items : List PropKey) : (firstPlaces items).Nodup :=
  List.nodup_reverse.mpr (List.nodup_dedup _)

theorem nodup_namedKeys (s : Store) : s.namedKeys.Nodup := by
  unfold namedKeys
  refine List.Nodup.append (.filter _ (nodup_firstPlaces _)) (.filter _ (nodup_firstPlaces _)) ?_
  intro key hstring hsymbol
  have hs := (List.mem_filter.mp hstring).2
  have hy := (List.mem_filter.mp hsymbol).2
  rw [hs] at hy
  cases hy

theorem mem_copies {src : Store} {excluded : List PropKey} {c : PropKey × JsValue} :
    c ∈ src.copies excluded ↔
      ∃ d ∈ src.records, d.key = c.1 ∧ src.copiedValue excluded d = some c.2 := by
  unfold copies
  rw [List.mem_filterMap]
  constructor
  · rintro ⟨d, hd, hmap⟩
    obtain ⟨val, hval, rfl⟩ := Option.map_eq_some_iff.mp hmap
    exact ⟨d, hd, rfl, hval⟩
  · rintro ⟨d, hd, hkey, hval⟩
    exact ⟨d, hd, by rw [hval, Option.map_some, hkey]⟩

def copyPairs (src : Store) (excluded : List PropKey) : List (PropKey × OwnRead) :=
  (src.copies excluded).map fun c => (c.1, .value c.2)

theorem map_fst_copyPairs (src : Store) (excluded : List PropKey) :
    (src.copyPairs excluded).map Prod.fst = (src.copies excluded).map Prod.fst := by
  unfold copyPairs
  rw [List.map_map]
  rfl

section Source

variable {κ : Type} [DecidableEq κ] (keys : KeyHeap κ) (src : Store) (excluded : List PropKey)

theorem copyPairs_iff :
    src.copyPairs excluded = src.namedKeys.filterMap (fun key =>
        (src.wantedRead keys excluded key).map fun r => (key, r)) ↔
      ((src.copies excluded).map Prod.fst).Sublist src.namedKeys ∧
        (∀ d ∈ src.records, ∀ val, src.copiedValue excluded d = some val →
          src.wantedRead keys excluded d.key = some (.value val)) ∧
        ∀ key ∈ src.namedKeys, (src.wantedRead keys excluded key).isSome = true →
          ∃ d ∈ src.records, d.key = key ∧ (src.copiedValue excluded d).isSome = true := by
  rw [eq_filterMap_iff (nodup_namedKeys src), map_fst_copyPairs]
  refine and_congr_right fun _ => and_congr ?_ ?_
  · constructor
    · intro h d hd val hval
      exact h (d.key, .value val)
        (List.mem_map.mpr ⟨(d.key, val), mem_copies.mpr ⟨d, hd, rfl, hval⟩, rfl⟩)
    · intro h c hc
      obtain ⟨⟨key, val⟩, hmem, rfl⟩ := List.mem_map.mp hc
      obtain ⟨d, hd, hkey, hval⟩ := mem_copies.mp hmem
      have hread := h d hd val hval
      rw [hkey] at hread
      exact hread
  · refine forall_congr' fun key => imp_congr_right fun _ => imp_congr_right fun _ => ?_
    constructor
    · intro h
      obtain ⟨⟨key', val⟩, hmem, rfl⟩ := List.mem_map.mp h
      obtain ⟨d, hd, hkey, hval⟩ := mem_copies.mp hmem
      exact ⟨d, hd, hkey, by rw [hval]; rfl⟩
    · rintro ⟨d, hd, hkey, hsome⟩
      obtain ⟨val, hval⟩ := Option.isSome_iff_exists.mp hsome
      exact List.mem_map.mpr ⟨(key, val), mem_copies.mpr ⟨d, hd, hkey, hval⟩, rfl⟩

def named (c : PropKey × OwnRead) : OwnKey × OwnRead := (.named c.1, c.2)

theorem named_injective : Function.Injective named := by
  intro a b h
  injection h with hkey hread
  injection hkey with hkey
  exact Prod.ext hkey hread

theorem copyReads_eq_wanted_iff :
    src.copyReads excluded = src.wanted keys excluded ↔
      (∀ p ∈ src.liveElements, isExcluded keys excluded (keys.indexContent p.1) = true) ∧
        src.copyPairs excluded = src.namedKeys.filterMap (fun key =>
          (src.wantedRead keys excluded key).map fun r => (key, r)) := by
  have hreads : src.copyReads excluded = (src.copyPairs excluded).map named := by
    rw [copyReads, copyPairs, List.map_map]
    rfl
  have hnamed : src.namedKeys.filterMap (fun key =>
      (src.wantedRead keys excluded key).map fun r => (OwnKey.named key, r)) =
      (src.namedKeys.filterMap fun key =>
        (src.wantedRead keys excluded key).map fun r => (key, r)).map named := by
    rw [List.map_filterMap]
    refine List.filterMap_congr fun key _ => ?_
    rw [Option.map_map]
    rfl
  rw [hreads, wanted, hnamed]
  constructor
  · intro h
    cases hlive : src.liveElements.filter fun p =>
      !isExcluded keys excluded (keys.indexContent p.1) with
    | nil =>
      rw [hlive] at h
      refine ⟨fun p hp => ?_, List.map_injective_iff.mpr named_injective h⟩
      have hnot := List.filter_eq_nil_iff.mp hlive p hp
      rwa [Bool.not_eq_true', Bool.not_eq_false] at hnot
    | cons p rest =>
      rw [hlive] at h
      have hmem : (OwnKey.index p.1, OwnRead.value p.2) ∈ (src.copyPairs excluded).map named := by
        rw [h]
        exact List.mem_cons_self
      obtain ⟨c, -, hc⟩ := List.mem_map.mp hmem
      cases hc
  · rintro ⟨helements, hpairs⟩
    have hlive : (src.liveElements.filter fun p =>
        !isExcluded keys excluded (keys.indexContent p.1)) = [] :=
      List.filter_eq_nil_iff.mpr fun p hp => by rw [helements p hp]; decide
    rw [hlive, hpairs]
    rfl

/-- **The own enumerable properties are copied exactly if the source is plain.** -/
theorem copyReads_iff :
    (∀ reports : List (OwnKey × OwnRead), src.copyReads excluded =
      if Machine.Plain src.object.kind then src.wanted keys excluded else reports) ↔
      src.CopyPlain keys excluded := by
  constructor
  · intro h
    by_cases hkind : Machine.Plain src.object.kind
    · have hwanted := h []
      rw [if_pos hkind, copyReads_eq_wanted_iff, copyPairs_iff] at hwanted
      obtain ⟨helements, horder, hreads, hrecorded⟩ := hwanted
      exact ⟨hkind, helements, hrecorded, hreads, horder⟩
    · -- one report more than there are copies
      have hreports := h ((.index 0, .fault) :: src.copyReads excluded)
      rw [if_neg hkind] at hreports
      exact absurd hreports.symm (List.cons_ne_self _ _)
  · intro h reports
    rw [if_pos h.kind, copyReads_eq_wanted_iff, copyPairs_iff]
    exact ⟨h.elements, h.order, h.reads, h.recorded⟩

end Source

/-! ## §3 The operations -/

end Store

namespace CopyOp

open Store

theorem housed_target {ops : List ShapeOp} {src : Store} (hsrc : src.tree = ShapeTree.runOps ops)
    {op : CopyOp} (hvalid : op.Valid src) : Housed (op.target src) := by
  have hedges : src.tree.EdgesAddKeys := hsrc ▸ edgesAddKeys_runOps ops
  cases op with
  | spread target isGlobal => exact ⟨hedges, hvalid⟩
  | rest rootShape prototype exclVals =>
    have hbind := ShapeTree.keepsLayout_bind src.tree rootShape
    exact ⟨ShapeTree.EdgesAddKeys.of_keepsLayout hedges hbind (ShapeTree.edgesFrom_bind _ _),
      Nat.lt_of_lt_of_le hvalid hbind.length⟩

/-- **A spread or a rest copies the own enumerable properties if and only if the source is plain
and the target ready at every copy**, whatever has been made of the shape space. -/
theorem copied_iff {κ : Type} [DecidableEq κ] (keys : KeyHeap κ) (ops : List ShapeOp) (src : Store)
    (hsrc : src.tree = ShapeTree.runOps ops) (op : CopyOp) (hvalid : op.Valid src) :
    op.Held keys src ↔ op.Plain keys src := by
  refine forall_congr' fun excluded => imp_congr_right fun _ => ?_
  have htarget := housed_target hsrc hvalid
  constructor
  · intro h
    exact ⟨(copyReads_iff keys src excluded).mp h.all,
      (stepsMeet_defines_iff htarget _).mp h.defines⟩
  · intro h
    exact ⟨(copyReads_iff keys src excluded).mpr h.1, (stepsMeet_defines_iff htarget _).mpr h.2⟩

def internedKeys : KeyHeap PropKey := ⟨id, .string, fun _ => 0, fun _ => 0, fun _ => .ok 0⟩

/-- An object with `value` under one key, in a space with the shapes of such objects. -/
def oneKey (value : JsValue) : Store :=
  ⟨ShapeTree.runOps [.newRoot 0, .addProperty 0 (.string 1) .default],
    { (default : JsObject) with shape := 1, properties := [value] }, false, true⟩

theorem copied_iff_spread :
    (spread (oneKey (.smi 1)).object false).Held internedKeys (oneKey (.smi 2)) ↔
      (spread (oneKey (.smi 1)).object false).Plain internedKeys (oneKey (.smi 2)) :=
  copied_iff internedKeys [.newRoot 0, .addProperty 0 (.string 1) .default] _ rfl _
    (Nat.lt_succ_self 1)

/-- `{ k: 1, ...{ k: 2 } }` has `1` under its key. -/
theorem spread_loses : ¬ ∀ (ops : List ShapeOp) (src : Store), src.tree = ShapeTree.runOps ops →
    ∀ op : CopyOp, op.Valid src → op.Held internedKeys src := by
  intro h
  have hheld := h [.newRoot 0, .addProperty 0 (.string 1) .default] (oneKey (.smi 2)) rfl
    (spread (oneKey (.smi 1)).object false) (Nat.lt_succ_self 1)
  have hdefines := (hheld [] rfl).defines.1 (.smi 2) rfl
  exact absurd hdefines.1 (by decide)

end CopyOp

end V12.Named
