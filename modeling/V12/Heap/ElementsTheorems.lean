/-
V12.Heap.ElementsTheorems — the element store against a partial map.

The reference is a map from indices to values with a length. A write sets
one slot and fills the gap below it with holes, whichever rung the plan
chose. `elements_agree_iff`: the store agrees with the reference through a
run exactly when no step is one of the four the code treats otherwise.
-/
import V12.Heap.ElementsSlots
import V12.Lib.Run

namespace V12.Heap

open JsValue

namespace ElementsStorage

variable {k : ElementsKind} {v : JsValue} {e : ElementsStorage} {i : Nat}

/-! ## §1 Writing -/

/-- The store keeps to its rung: admitted slots within the flat bound, or a well-formed
dictionary. -/
inductive WellFormed : ElementsStorage → Prop where
  | flat {e : ElementsStorage} (hf : e.IsFlat) (ha : e.SlotsAdmitted)
      (hlen : e.slots.length ≤ ELEMENTS_TO_DICTIONARY_INDEX) : WellFormed e
  | dictionary {dict : ElementsDictionary} (h : dict.WellFormed) : WellFormed (.dictionary dict)

instance (k target : ElementsKind) : Decidable (Widens k target) :=
  inferInstanceAs (Decidable (_ ∧ _))

theorem joinKind_widens (cls : ValueClass) (hk : k ≠ .dictionary) (gap : Bool) :
    Widens k (joinKind k (minimumKind k cls) gap) ∧
      (gap → (joinKind k (minimumKind k cls) gap).isHoley) := by
  cases cls <;> cases k <;> cases gap <;>
    simp [joinKind, minimumKind, ElementsKind.rank, ElementsKind.isHoley, ElementsKind.toHoley,
      ElementsKind.isDictionary, Widens] at hk ⊢

theorem rank_le_joinKind (k minimum : ElementsKind) (gap : Bool) :
    minimum.rank ≤ (joinKind k minimum gap).rank := by
  cases k <;> cases minimum <;> cases gap <;> decide

theorem isHoley_joinKind_hole (hk : k ≠ .dictionary) (gap : Bool) :
    (joinKind k (minimumKind k .hole) gap).isHoley := by
  cases k <;> cases gap <;>
    simp [joinKind, minimumKind, ElementsKind.rank, ElementsKind.isHoley, ElementsKind.toHoley,
      ElementsKind.isDictionary] at hk ⊢

theorem admits_joinKind (hk : k ≠ .dictionary) (hv : v.IsBoxed) (gap : Bool) :
    (joinKind k (minimumKind k (classify v)) gap).Admits
      (recode (joinKind k (minimumKind k (classify v)) gap) v) := by
  have hrank := rank_le_joinKind k (minimumKind k (classify v)) gap
  have other : v ≠ .hole → classify v = .other v → ElementsKind.packedObject.rank ≤
      (joinKind k (minimumKind k (classify v)) gap).rank := by
    intro _ hcls
    refine Nat.le_trans ?_ hrank
    rw [hcls, minimumKind]
    split <;> decide
  cases v with
  | hole =>
    rw [recode_hole]
    exact ElementsKind.admits_hole (isHoley_joinKind_hole hk gap)
  | smi n => exact admits_recode_smi hv
  | double d =>
    refine admits_recode_double hv (Nat.le_trans ?_ hrank)
    change _ ≤ (minimumKind k (.double d)).rank
    rw [minimumKind]
    split <;> decide
  | _ => exact admits_recode_other hv (by simp) (other (by simp) rfl)

theorem map_putAt {α β : Type} (f : α → β) (v : List α) (i : Nat) (a : α) :
    (putAt v i a).map f = putAt (v.map f) i (f a) := by
  unfold putAt
  rw [List.length_map]
  split
  · exact List.map_set
  · rw [List.map_append, List.map_singleton]

theorem toValue_classify (hv : v.IsBoxed) : (classify v).toValue = v := by
  cases v with
  | smi n => exact smiValue_of_inSmi hv
  | double d => exact fromF64_of_isRaw hv
  | _ => rfl

theorem store_flat (hf : e.IsFlat) (hv : v.IsBoxed) (i : Nat)
    (ha : e.kind.Admits (recode e.kind v)) :
    (e.store i (classify v)).kind = e.kind ∧
      (e.store i (classify v)).slots = putAt e.slots i (recode e.kind v) := by
  cases e with
  | dictionary dict => exact absurd rfl hf
  | packedSmi l =>
    obtain ⟨n, hn, heq⟩ := ha
    change v = .smi n at heq
    subst heq
    refine ⟨rfl, ?_⟩
    change (putAt l i n).map smiValue = _
    rw [map_putAt, smiValue_of_inSmi hn]
    rfl
  | holeySmi l =>
    rcases ha with heq | ⟨n, hn, heq⟩
    · change v = .hole at heq
      subst heq
      exact ⟨rfl, rfl⟩
    · change v = .smi n at heq
      subst heq
      refine ⟨rfl, ?_⟩
      change putAt l i (smiValue n) = _
      rw [smiValue_of_inSmi hn]
      rfl
  | packedDouble l =>
    obtain ⟨d, hd, heq⟩ := ha
    refine ⟨?_, ?_⟩
    · cases v <;> simp [recode] at heq <;> rfl
    · rw [heq, ← fromF64_of_isRaw hd]
      cases v with
      | smi n => cases heq; exact map_putAt fromF64 l i _
      | double d' => cases heq; exact map_putAt fromF64 l i _
      | _ => cases heq
  | holeyDouble l =>
    rcases ha with heq | ⟨d, hd, heq⟩
    · cases v with
      | hole => exact ⟨rfl, rfl⟩
      | _ => cases heq
    · rw [heq, ← fromF64_of_isRaw hd]
      cases v with
      | smi n => cases heq; exact ⟨rfl, rfl⟩
      | double d' => cases heq; exact ⟨rfl, rfl⟩
      | _ => cases heq
  | packedObject l =>
    refine ⟨rfl, ?_⟩
    change putAt l i (classify v).toValue = _
    rw [toValue_classify hv]
    rfl
  | holeyObject l =>
    refine ⟨rfl, ?_⟩
    change putAt l i (classify v).toValue = _
    rw [toValue_classify hv]
    rfl

theorem fillGaps_flat (hf : e.IsFlat) (hholey : e.slots.length < i → e.kind.isHoley) :
    (if i > e.fastLen then e.fillGaps i else e).kind = e.kind ∧
      (if i > e.fastLen then e.fillGaps i else e).slots =
        e.slots ++ List.replicate (i - e.slots.length) .hole := by
  rw [fastLen_eq]
  split
  · rename_i hgap
    have hk := hholey hgap
    cases e with
    | holeySmi l => exact ⟨rfl, rfl⟩
    | holeyDouble l => exact ⟨rfl, rfl⟩
    | holeyObject l => exact ⟨rfl, rfl⟩
    | _ => cases hk
  · have hzero : i - e.slots.length = 0 := by omega
    rw [hzero, List.replicate_zero, List.append_nil]
    exact ⟨rfl, rfl⟩

theorem isDictionary_of_isFlat (hf : e.IsFlat) :
    e.kind.isDictionary = false := by
  cases e with
  | dictionary dict => exact absurd rfl hf
  | _ => rfl

theorem plan_flat (hf : e.IsFlat) (hv : v.IsBoxed) (hplan : e.plan (classify v) i = some k) :
    i < ELEMENTS_TO_DICTIONARY_INDEX ∧ Widens e.kind k ∧ (e.slots.length < i → k.isHoley) ∧
      k.Admits (recode k v) := by
  simp only [plan, isDictionary_of_isFlat hf, Bool.false_eq_true, if_false] at hplan
  split at hplan
  · cases hplan
  · rename_i hnear
    cases hplan
    obtain ⟨hwide, hgap⟩ := joinKind_widens (classify v) hf (decide (i > e.fastLen))
    refine ⟨by omega, hwide, ?_, admits_joinKind hf hv _⟩
    intro hlt
    apply hgap
    rw [fastLen_eq]
    exact decide_eq_true hlt

theorem plan_none {cls : ValueClass} (hf : e.IsFlat)
    (hlen : e.slots.length ≤ ELEMENTS_TO_DICTIONARY_INDEX) (hplan : e.plan cls i = none) :
    e.slots.length ≤ i := by
  simp only [plan, isDictionary_of_isFlat hf, Bool.false_eq_true, if_false] at hplan
  split at hplan
  · rename_i hfar
    rw [len_eq_of_isFlat hf] at hfar
    rcases hfar with hfar | hfar <;> omega
  · cases hplan

/-- The store `set` writes into: on the planned rung, its gap filled. -/
def prepared (e : ElementsStorage) (i : Nat) (v : JsValue) : ElementsStorage :=
  let planned :=
    match e.plan (classify v) i with
    | some kind => if kind ≠ e.kind then e.convertStorage kind else e
    | none => e.convertStorage .dictionary
  if i > planned.fastLen then planned.fillGaps i else planned

theorem set_eq (e : ElementsStorage) (i : Nat) (v : JsValue) :
    e.set i v = (e.prepared i v).store i (classify v) := rfl

theorem prepared_of_plan (hf : e.IsFlat) (ha : e.SlotsAdmitted) (hv : v.IsBoxed)
    (hplan : e.plan (classify v) i = some k) :
    (e.prepared i v).kind = k ∧
      (e.prepared i v).slots =
        e.slots.map (recode k) ++ List.replicate (i - e.slots.length) .hole := by
  obtain ⟨-, hwide, hholey, -⟩ := plan_flat hf hv hplan
  obtain ⟨hkind, hslots⟩ := convertStorage_flat ha hf hwide
  have hlen : (e.convertStorage k).slots.length = e.slots.length := by
    rw [hslots, List.length_map]
  have hflat : (e.convertStorage k).IsFlat := by
    unfold IsFlat
    rw [hkind]
    exact hwide.2.2
  have hplanned : (if k ≠ e.kind then e.convertStorage k else e) = e.convertStorage k := by
    split
    · rfl
    · rename_i hk
      exact (if_pos (not_not.mp hk).symm).symm
  obtain ⟨hfkind, hfslots⟩ := fillGaps_flat hflat (i := i) (by rw [hlen, hkind]; exact hholey)
  rw [hlen] at hfslots
  rw [hkind] at hfkind
  simp only [prepared, hplan, hplanned]
  rw [hfkind, hfslots, hslots]
  exact ⟨rfl, rfl⟩

theorem set_of_plan (hf : e.IsFlat) (ha : e.SlotsAdmitted) (hv : v.IsBoxed)
    (hplan : e.plan (classify v) i = some k) :
    (e.set i v).kind = k ∧
      (e.set i v).slots = putAt
        (e.slots.map (recode k) ++ List.replicate (i - e.slots.length) .hole) i (recode k v) := by
  obtain ⟨-, hwide, -, hadmits⟩ := plan_flat hf hv hplan
  obtain ⟨hkind, hslots⟩ := prepared_of_plan hf ha hv hplan
  have hflat : (e.prepared i v).IsFlat := by
    unfold IsFlat
    rw [hkind]
    exact hwide.2.2
  obtain ⟨hskind, hsslots⟩ := store_flat hflat hv i (by rw [hkind]; exact hadmits)
  rw [set_eq, hskind, hsslots, hkind, hslots]
  exact ⟨rfl, rfl⟩

theorem set_of_escape (hf : e.IsFlat) (ha : e.SlotsAdmitted) (hv : v.IsBoxed)
    (hplan : e.plan (classify v) i = none) :
    e.set i v = .dictionary ((dictionaryOf e.slots).insert i v) := by
  simp only [set, hplan, convertStorage_dictionary ha hf]
  have hfilled : (if i > (ElementsStorage.dictionary (dictionaryOf e.slots)).fastLen then
      (ElementsStorage.dictionary (dictionaryOf e.slots)).fillGaps i
      else .dictionary (dictionaryOf e.slots)) = .dictionary (dictionaryOf e.slots) := by
    split <;> rfl
  rw [hfilled]
  simp only [store, insertDictionary, toValue_classify hv]

theorem set_dictionary {dict : ElementsDictionary} (hv : v.IsBoxed) (i : Nat) :
    (ElementsStorage.dictionary dict).set i v = .dictionary (dict.insert i v) := by
  have hplan : (ElementsStorage.dictionary dict).plan (classify v) i = some .dictionary := rfl
  have hkeep : (if ElementsKind.dictionary ≠ (ElementsStorage.dictionary dict).kind then
      (ElementsStorage.dictionary dict).convertStorage .dictionary
      else .dictionary dict) = .dictionary dict := if_neg (not_not.mpr rfl)
  have hfilled : (if i > (ElementsStorage.dictionary dict).fastLen then
      (ElementsStorage.dictionary dict).fillGaps i else .dictionary dict) =
      .dictionary dict := by
    split <;> rfl
  simp only [set, hplan, hkeep, hfilled, store, insertDictionary, toValue_classify hv]

/-! ## §2 What an operation does to the reads -/

theorem getElem?_putAt_fill (l : List JsValue) (i j : Nat) (u : JsValue) :
    present (putAt (l ++ List.replicate (i - l.length) .hole) i u)[j]? =
      if j = i then present (some u) else present l[j]? := by
  have hlong : (l ++ List.replicate (i - l.length) JsValue.hole).length = max l.length i := by
    simp
    omega
  have hread : present (l ++ List.replicate (i - l.length) JsValue.hole)[j]? = present l[j]? := by
    rw [List.getElem?_append]
    split
    · rfl
    · rename_i hj
      rw [List.getElem?_eq_none (Nat.le_of_not_lt hj), List.getElem?_replicate]
      split <;> rfl
  unfold putAt
  rw [hlong]
  split
  · rename_i hi
    rw [List.getElem?_set]
    by_cases hj : i = j
    · rw [if_pos hj, if_pos hj.symm, if_pos (by rw [hlong]; omega)]
    · rw [if_neg hj, if_neg (Ne.symm hj), hread]
  · rename_i hi
    have hmax : max l.length i = i := by omega
    by_cases hj : j = i
    · subst hj
      rw [if_pos rfl, List.getElem?_append_right (by omega), hlong, hmax, Nat.sub_self]
      rfl
    · rw [if_neg hj, ← hread, List.getElem?_append]
      split
      · rfl
      · rename_i hout
        rw [List.getElem?_eq_none (by simp; omega), List.getElem?_eq_none (by omega)]

theorem length_putAt_fill (l : List JsValue) (i : Nat) (u : JsValue) :
    (putAt (l ++ List.replicate (i - l.length) .hole) i u).length = max l.length (i + 1) := by
  unfold putAt
  split
  · rename_i hi
    simp at hi ⊢
    omega
  · rename_i hi
    simp at hi ⊢
    omega

theorem mem_putAt_fill {l : List JsValue} {u w : JsValue}
    (h : w ∈ putAt (l ++ List.replicate (i - l.length) .hole) i u) :
    w ∈ l ∨ (l.length < i ∧ w = .hole) ∨ w = u := by
  have hold : w ∈ l ++ List.replicate (i - l.length) JsValue.hole →
      w ∈ l ∨ (l.length < i ∧ w = .hole) ∨ w = u := by
    intro hw
    rcases List.mem_append.mp hw with hw | hw
    · exact .inl hw
    · obtain ⟨hne, heq⟩ := List.mem_replicate.mp hw
      exact .inr (.inl ⟨by omega, heq⟩)
  unfold putAt at h
  split at h
  · rcases List.mem_or_eq_of_mem_set h with hw | hw
    · exact hold hw
    · exact .inr (.inr hw)
  · rcases List.mem_append.mp h with hw | hw
    · exact hold hw
    · exact .inr (.inr (List.mem_singleton.mp hw))

/-- A read of the store against a value of the reference. -/
def Reads (stored written : Option JsValue) : Prop := Option.Rel SameNumber stored written

theorem Reads.refl (u : Option JsValue) : Reads u u := by
  cases u with
  | none => exact .none
  | some v => exact .some (.same v)

theorem Reads.trans {a b c : Option JsValue} (hab : Reads a b) (hbc : Reads b c) : Reads a c := by
  cases hab with
  | none => exact hbc
  | some h =>
    cases hbc with
    | some h' => exact .some (h.trans h')

theorem reads_present {u : JsValue} (h : SameNumber u v) :
    Reads (present (some u)) (present (some v)) := by
  rw [present_some, present_some, h.isHole_eq]
  split
  · exact .none
  · exact .some h

theorem reads_present_recode (k : ElementsKind) (l : List JsValue) (j : Nat) :
    Reads (present (l.map (recode k))[j]?) (present l[j]?) := by
  rw [List.getElem?_map]
  cases l[j]? with
  | none => exact .none
  | some u => exact reads_present (sameNumber_recode k u)

/-- What a write does: the length reaches past the index, the index reads as written, the
others as before. -/
structure Written (e e' : ElementsStorage) (i : Nat) (v : JsValue) : Prop where
  wellFormed : e'.WellFormed
  len : e'.len = max e.len (i + 1)
  reads : ∀ j, Reads (e'.getBoxed j) (if j = i then present (some v) else e.getBoxed j)

theorem written_of_plan (hf : e.IsFlat) (ha : e.SlotsAdmitted)
    (hlen : e.slots.length ≤ ELEMENTS_TO_DICTIONARY_INDEX) (hv : v.IsBoxed)
    (hplan : e.plan (classify v) i = some k) : Written e (e.set i v) i v := by
  obtain ⟨hnear, hwide, hholey, hadmits⟩ := plan_flat hf hv hplan
  obtain ⟨hkind, hslots⟩ := set_of_plan hf ha hv hplan
  have hf' : (e.set i v).IsFlat := by
    unfold IsFlat
    rw [hkind]
    exact hwide.2.2
  have hmap : (e.slots.map (recode k)).length = e.slots.length := List.length_map _
  rw [← hmap] at hslots
  have hlong : (e.set i v).slots.length = max e.slots.length (i + 1) := by
    rw [hslots, length_putAt_fill, hmap]
  have ha' : (e.set i v).SlotsAdmitted := by
    intro u hu
    rw [hkind]
    rw [hslots] at hu
    rcases mem_putAt_fill hu with hu | ⟨hgap, rfl⟩ | rfl
    · obtain ⟨w, hw, rfl⟩ := List.mem_map.mp hu
      exact admits_recode hwide (ha w hw)
    · exact ElementsKind.admits_hole (hholey (by omega))
    · exact hadmits
  refine ⟨.flat hf' ha' (by omega), ?_, ?_⟩
  · rw [len_eq_of_isFlat hf', len_eq_of_isFlat hf, hlong]
  · intro j
    rw [getBoxed_eq_of_isFlat hf' ha', getBoxed_eq_of_isFlat hf ha, hslots, getElem?_putAt_fill]
    split
    · exact reads_present (sameNumber_recode k v)
    · exact reads_present_recode k e.slots j

theorem written_dictionary {dict : ElementsDictionary} (hwf : dict.WellFormed)
    (hlen : dict.length ≤ e.len) (hkeep : e.len ≤ max dict.length i)
    (hget : ∀ j, dict.get j = e.getBoxed j) (hv : v.IsBoxed) (hne : v ≠ .hole)
    (hi : i + 1 < 2 ^ 32) : Written e (.dictionary (dict.insert i v)) i v := by
  refine ⟨.dictionary (hwf.insert hi hv hne), ?_, ?_⟩
  · rw [len, ElementsDictionary.length_insert hi]
    omega
  · intro j
    rw [getBoxed, ElementsDictionary.get_insert, hget,
      present_of_ne_hole (fun h => hne (Option.some.inj h))]
    split <;> exact Reads.refl _

theorem WellFormed.set (h : e.WellFormed) (hi : i + 1 < 2 ^ 32) (hv : v.IsBoxed) (hne : v ≠ .hole) :
    Written e (e.set i v) i v := by
  cases h with
  | flat hf ha hlen =>
    cases hplan : e.plan (classify v) i with
    | some k => exact written_of_plan hf ha hlen hv hplan
    | none =>
      have hbeyond := plan_none hf hlen hplan
      have hbound : e.slots.length < 2 ^ 32 := by
        unfold ELEMENTS_TO_DICTIONARY_INDEX at hlen
        omega
      obtain ⟨hwf, hle, hget⟩ := dictionaryOf_spec hbound fun u hu => (ha u hu).isBoxed
      rw [set_of_escape hf ha hv hplan]
      refine written_dictionary hwf ?_ ?_ ?_ hv hne hi
      · rw [len_eq_of_isFlat hf]
        exact hle
      · rw [len_eq_of_isFlat hf]
        omega
      · intro j
        rw [hget, getBoxed_eq_of_isFlat hf ha]
  | dictionary hwf =>
    rw [set_dictionary hv]
    exact written_dictionary hwf (Nat.le_refl _) (Nat.le_max_left _ _) (fun j => rfl) hv hne hi

theorem WellFormed.delete (h : e.WellFormed) (hf : e.IsFlat) (hi : i < e.len) :
    Written e (e.delete i) i .hole := by
  cases h with
  | dictionary hwf => exact absurd rfl hf
  | flat _ ha hlen =>
    have hin : i < e.slots.length := by
      rw [← len_eq_of_isFlat hf]
      exact hi
    cases hplan : e.plan (classify .hole) i with
    | some k => exact written_of_plan hf ha hlen trivial hplan
    | none =>
      have := plan_none hf hlen hplan
      omega

theorem pop_flat (hf : e.IsFlat) :
    e.pop.2.kind = e.kind ∧ e.pop.2.slots = e.slots.dropLast := by
  cases e with
  | dictionary dict => exact absurd rfl hf
  | packedSmi v => exact ⟨rfl, List.map_dropLast⟩
  | packedDouble v => exact ⟨rfl, List.map_dropLast⟩
  | _ => exact ⟨rfl, rfl⟩

theorem WellFormed.pop (h : e.WellFormed) :
    e.pop.2.WellFormed ∧
      ∀ i, e.pop.2.getBoxed i = if i = e.len - 1 then none else e.getBoxed i := by
  cases h with
  | dictionary hwf => exact ⟨.dictionary hwf.pop, fun i => ElementsDictionary.get_pop hwf i⟩
  | flat hf ha hlen =>
    obtain ⟨hkind, hslots⟩ := pop_flat hf
    have hf' : e.pop.2.IsFlat := by
      unfold IsFlat
      rw [hkind]
      exact hf
    have ha' : e.pop.2.SlotsAdmitted := by
      intro u hu
      rw [hslots] at hu
      rw [hkind]
      exact ha u (List.dropLast_subset _ hu)
    refine ⟨.flat hf' ha' ?_, ?_⟩
    · rw [hslots, List.length_dropLast]
      omega
    · intro i
      rw [getBoxed_eq_of_isFlat hf' ha', getBoxed_eq_of_isFlat hf ha, hslots, len_eq_of_isFlat hf,
        List.getElem?_dropLast]
      split
      · rw [if_neg (by omega)]
      · by_cases hi : i = e.slots.length - 1
        · rw [if_pos hi]
          rfl
        · rw [if_neg hi, List.getElem?_eq_none (by omega)]

theorem WellFormed.len_pop_iff (h : e.WellFormed) :
    e.pop.2.len = e.len - 1 ↔
      e.IsFlat ∨ e.len ≤ 1 ∨ e.getBoxed (e.len - 2) ≠ none := by
  cases h with
  | dictionary hwf =>
    rw [or_iff_right (fun hf : IsFlat _ => hf rfl)]
    exact ElementsDictionary.length_pop_eq_iff hwf
  | flat hf ha hlen =>
    obtain ⟨hkind, hslots⟩ := pop_flat hf
    have hf' : e.pop.2.IsFlat := by
      unfold IsFlat
      rw [hkind]
      exact hf
    refine ⟨fun _ => .inl hf, fun _ => ?_⟩
    rw [len_eq_of_isFlat hf', len_eq_of_isFlat hf, hslots, List.length_dropLast]

end ElementsStorage

/-! ## §3 Runs against the partial map -/

def Element : Type := { v : JsValue // v.IsBoxed ∧ v ≠ .hole }

/-- An operation on an element store; an index is a `u32`. -/
inductive ElementsOp where
  | set (index : UInt32) (value : Element)
  | push (value : Element)
  | pop
  | delete (index : UInt32)

def ElementsStorage.apply (e : ElementsStorage) : ElementsOp → ElementsStorage
  | .set index value => e.set index.toNat value.1
  | .push value => e.push value.1
  | .pop => e.pop.2
  | .delete index => e.delete index.toNat

/-- The partial map an element store stands for, with its length. -/
structure PartialMap where
  entries : Nat → Option JsValue
  length : Nat

namespace PartialMap

def empty : PartialMap := ⟨fun _ => none, 0⟩

/-- The value is written; the length reaches past the index. -/
def write (m : PartialMap) (index : Nat) (v : JsValue) : PartialMap :=
  ⟨fun i => if i = index then some v else m.entries i, max m.length (index + 1)⟩

def pop (m : PartialMap) : PartialMap :=
  ⟨fun i => if i = m.length - 1 then none else m.entries i, m.length - 1⟩

def erase (m : PartialMap) (index : Nat) : PartialMap :=
  { m with entries := fun i => if i = index then none else m.entries i }

def apply (m : PartialMap) : ElementsOp → PartialMap
  | .set index value => m.write index.toNat value.1
  | .push value => m.write m.length value.1
  | .pop => m.pop
  | .delete index => m.erase index.toNat

end PartialMap

/-- The store and the map it should stand for, side by side. -/
abbrev ElementsRun := ElementsStorage × PartialMap

namespace ElementsRun

open ElementsStorage

variable {e : ElementsStorage} {s : ElementsRun} {i : Nat}

def step (s : ElementsRun) (op : ElementsOp) : ElementsRun := (s.1.apply op, s.2.apply op)

def start : ElementsRun := (.new, .empty)

/-- Every index reads as the map has it, and the lengths are equal. -/
def Agrees (s : ElementsRun) : Prop :=
  (∀ i, Reads (s.1.getBoxed i) (s.2.entries i)) ∧ s.1.len = s.2.length

/-- The steps the store takes as the map does: a write the length view can count past, a pop
off the dictionary rung or onto an index that is present, a deletion of an element of a flat
store. -/
def Kept (s : ElementsRun) : ElementsOp → Prop
  | .set index _ => index.toNat + 1 < 2 ^ 32
  | .push _ => s.1.len + 1 < 2 ^ 32
  | .pop => s.1.kind ≠ .dictionary ∨ s.1.len ≤ 1 ∨ s.1.getBoxed (s.1.len - 2) ≠ none
  | .delete index => s.1.kind ≠ .dictionary ∧ index.toNat < s.1.len

instance (s : ElementsRun) (op : ElementsOp) : Decidable (s.Kept op) := by
  cases op <;> simp only [Kept] <;> infer_instance

def Inv (s : ElementsRun) : Prop := s.1.WellFormed ∧ s.Agrees

theorem inv_start : start.Inv := by
  refine ⟨.flat (by decide) (fun u hu => by cases hu) (by decide), fun i => ?_, rfl⟩
  exact .none

theorem len_lt (h : e.WellFormed) : e.len < 2 ^ 32 := by
  cases h with
  | dictionary hwf => exact hwf.small
  | flat hf ha hlen =>
    rw [len_eq_of_isFlat hf]
    unfold ELEMENTS_TO_DICTIONARY_INDEX at hlen
    omega

theorem inv_write (h : s.Inv) {e' : ElementsStorage} {v : JsValue} (hne : v ≠ .hole)
    (hw : Written s.1 e' i v) : Inv (e', s.2.write i v) := by
  obtain ⟨-, hreads, hlen⟩ := h
  refine ⟨hw.wellFormed, fun j => ?_, ?_⟩
  · have hj := hw.reads j
    rw [present_of_ne_hole (fun h => hne (Option.some.inj h))] at hj
    simp only [PartialMap.write]
    split at hj
    · rename_i heq
      rw [if_pos heq]
      exact hj
    · rename_i hother
      rw [if_neg hother]
      exact hj.trans (hreads j)
  · simp only [PartialMap.write]
    rw [hw.len, hlen]

theorem inv_step (op : ElementsOp) (h : s.Inv) (hkept : s.Kept op) :
    (s.step op).Inv := by
  obtain ⟨hwf, hreads, hlen⟩ := h
  cases op with
  | set index value =>
    exact inv_write ⟨hwf, hreads, hlen⟩ value.2.2 (hwf.set hkept value.2.1 value.2.2)
  | push value =>
    have hw := hwf.set hkept value.2.1 value.2.2
    have hinv := inv_write ⟨hwf, hreads, hlen⟩ value.2.2 hw
    rw [hlen] at hinv
    simpa [step, apply, push, PartialMap.apply, hlen] using hinv
  | pop =>
    obtain ⟨hwf', hget⟩ := hwf.pop
    refine ⟨hwf', fun j => ?_, ?_⟩
    · simp only [step, apply, PartialMap.apply, PartialMap.pop]
      rw [hget, hlen]
      split
      · exact .none
      · exact hreads j
    · simp only [step, apply, PartialMap.apply, PartialMap.pop]
      rw [hwf.len_pop_iff.mpr hkept, hlen]
  | delete index =>
    have hw := hwf.delete hkept.1 hkept.2
    refine ⟨hw.wellFormed, fun j => ?_, ?_⟩
    · have hj := hw.reads j
      simp only [step, apply, PartialMap.apply, PartialMap.erase]
      rw [present_hole] at hj
      split at hj
      · rename_i heq
        rw [if_pos heq]
        exact hj
      · rename_i hother
        rw [if_neg hother]
        exact hj.trans (hreads j)
    · simp only [step, apply, PartialMap.apply, PartialMap.erase]
      rw [hw.len, ← hlen]
      have := hkept.2
      omega

theorem len_set_last (h : e.WellFormed) {v : JsValue} (hv : v.IsBoxed) (hi : i = 2 ^ 32 - 1) :
    (e.set i v).len < 2 ^ 32 := by
  have hinsert : ∀ dict : ElementsDictionary, dict.length < 2 ^ 32 →
      (dict.insert i v).length < 2 ^ 32 := by
    intro dict hlen
    simp only [ElementsDictionary.insert, ElementsDictionary.saturatingSucc]
    omega
  cases h with
  | dictionary hwf =>
    rw [set_dictionary hv]
    exact hinsert _ hwf.small
  | flat hf ha hlen =>
    have hbound : e.slots.length < 2 ^ 32 := by
      unfold ELEMENTS_TO_DICTIONARY_INDEX at hlen
      omega
    cases hplan : e.plan (classify v) i with
    | some k =>
      have hnear := (plan_flat hf hv hplan).1
      unfold ELEMENTS_TO_DICTIONARY_INDEX at hnear
      omega
    | none =>
      rw [set_of_escape hf ha hv hplan]
      have hle := (dictionaryOf_spec hbound fun u hu => (ha u hu).isBoxed).2.1
      exact hinsert _ (by omega)

theorem delete_differs (h : e.WellFormed) (hnot : ¬ (e.IsFlat ∧ i < e.len)) :
    (e.delete i).getBoxed i = some .hole ∨ (e.delete i).len ≠ e.len := by
  have hread : ∀ dict : ElementsDictionary,
      (ElementsStorage.dictionary (dict.insert i .hole)).getBoxed i = some .hole := by
    intro dict
    rw [getBoxed, ElementsDictionary.get_insert, if_pos rfl]
  have hv : JsValue.hole.IsBoxed := trivial
  unfold delete
  cases h with
  | dictionary hwf =>
    rw [set_dictionary hv]
    exact .inl (hread _)
  | flat hf ha hlen =>
    cases hplan : e.plan (classify .hole) i with
    | none =>
      rw [set_of_escape hf ha hv hplan]
      exact .inl (hread _)
    | some k =>
      have hw := written_of_plan hf ha hlen hv hplan
      have hout : ¬ i < e.len := fun hi => hnot ⟨hf, hi⟩
      refine .inr ?_
      rw [hw.len]
      omega

theorem kept_of_agrees (op : ElementsOp) (h : s.Inv) (hagrees : (s.step op).Agrees) :
    s.Kept op := by
  obtain ⟨hwf, hreads, hlen⟩ := h
  obtain ⟨hreads', hlen'⟩ := hagrees
  cases op with
  | set index value =>
    by_contra hnot
    simp only [Kept] at hnot
    have hlt := index.toNat_lt
    have hlast := len_set_last hwf value.2.1 (i := index.toNat) (by omega)
    simp only [step, apply, PartialMap.apply, PartialMap.write] at hlen'
    omega
  | push value =>
    by_contra hnot
    simp only [Kept] at hnot
    have hlt := len_lt hwf
    have hlast := len_set_last hwf value.2.1 (i := s.1.len) (by omega)
    simp only [step, apply, push, PartialMap.apply, PartialMap.write] at hlen'
    omega
  | pop =>
    apply hwf.len_pop_iff.mp
    simp only [step, apply, PartialMap.apply, PartialMap.pop] at hlen'
    rw [hlen', hlen]
  | delete index =>
    by_contra hnot
    rcases delete_differs hwf hnot with hhole | hne
    · have hread := hreads' index.toNat
      simp only [step, apply, PartialMap.apply, PartialMap.erase, if_pos] at hread
      rw [hhole] at hread
      cases hread
    · simp only [step, apply, PartialMap.apply, PartialMap.erase] at hlen'
      rw [hlen', hlen] at hne
      exact hne rfl

end ElementsRun

/-- **The element store against the partial map**: a run from the empty store agrees with the
map at every point exactly when each of its steps is kept. -/
theorem elements_agree_iff (ops : List ElementsOp) :
    (∀ before after, ops = before ++ after →
        (Lib.run ElementsRun.step ElementsRun.start before).Agrees) ↔
      Lib.StepsMeet ElementsRun.step ElementsRun.Kept ElementsRun.start ops :=
  Lib.states_iff_of_invariant (I := ElementsRun.Inv) (P := ElementsRun.Agrees) (fun _ h => h.2)
    (fun s op h => ElementsRun.kept_of_agrees (s := s) op h)
    (fun s op h => ElementsRun.inv_step (s := s) op h) ElementsRun.inv_start ops

/-- One element far out makes a dictionary; deleting it leaves a hole to be read there, where
`get` promises none. -/
theorem deleted_dictionary_element_read :
    (Lib.run ElementsRun.step ElementsRun.start
        [.set 2000 ⟨.smi 1, by decide⟩, .delete 2000]).1.getBoxed 2000 = some .hole ∧
      ¬ (Lib.run ElementsRun.step ElementsRun.start
        [.set 2000 ⟨.smi 1, by decide⟩, .delete 2000]).Agrees := by
  have hread : (Lib.run ElementsRun.step ElementsRun.start
      [.set 2000 ⟨.smi 1, by decide⟩, .delete 2000]).1.getBoxed 2000 = some .hole := by decide
  refine ⟨hread, fun hagrees => ?_⟩
  have habsent := hagrees.1 2000
  rw [hread] at habsent
  cases habsent

end V12.Heap
