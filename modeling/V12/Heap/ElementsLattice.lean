/-
V12.Heap.ElementsLattice — the element store moves up its lattice, keeps
to its rung, and never reaches the arms kept for a plan that disagrees
with the store.

`setAsserted` is `set` with the debug assertion of `put_at` and the last
arm of the final match made visible: it answers `none` there.
-/
import V12.Heap.ElementsTheorems

namespace V12.Heap

open JsValue

/-! ## §1 Calls and assertions -/

/-- A value as a NaN-boxed word holds it, the hole included. -/
def Boxed : Type := { v : JsValue // v.IsBoxed }

/-- A call that changes an element store; an index is a `u32`. -/
inductive ElementsCall where
  | set (index : UInt32) (value : Boxed)
  | push (value : Boxed)
  | pop

namespace ElementsStorage

variable {e : ElementsStorage} {v : JsValue}

def call (e : ElementsStorage) : ElementsCall → ElementsStorage
  | .set index value => e.set index.toNat value.1
  | .push value => e.push value.1
  | .pop => e.pop.2

/-- `put_at` with its debug assertion that a write off the end is dense. -/
def putAtAsserted {α : Type} (v : List α) (index : Nat) (item : α) : Option (List α) :=
  if index < v.length then some (v.set index item)
  else if index = v.length then some (v ++ [item])
  else none

/-- The last step of `set` as long as no assertion fires and the arm of a plan that disagrees
with the store is not reached. -/
def storeAsserted (e : ElementsStorage) (index : Nat) (cls : ValueClass) :
    Option ElementsStorage :=
  match e, cls with
  | .dictionary dict, cls => some (insertDictionary (.dictionary dict) index cls)
  | .packedSmi v, .smi n => (putAtAsserted v index n).map .packedSmi
  | .holeySmi v, .smi n => (putAtAsserted v index (smiValue n)).map .holeySmi
  | .holeySmi v, .hole => (putAtAsserted v index .hole).map .holeySmi
  | .packedDouble v, .double d => (putAtAsserted v index d).map .packedDouble
  | .packedDouble v, .smi n => (putAtAsserted v index (f64OfInt n)).map .packedDouble
  | .holeyDouble v, .double d => (putAtAsserted v index (fromF64 d)).map .holeyDouble
  | .holeyDouble v, .smi n => (putAtAsserted v index (fromF64 (f64OfInt n))).map .holeyDouble
  | .holeyDouble v, .hole => (putAtAsserted v index .hole).map .holeyDouble
  | .packedObject v, cls => (putAtAsserted v index cls.toValue).map .packedObject
  | .holeyObject v, cls => (putAtAsserted v index cls.toValue).map .holeyObject
  | _, _ => none

/-- `set` as long as no assertion fires. -/
def setAsserted (e : ElementsStorage) (index : Nat) (value : JsValue) : Option ElementsStorage :=
  (e.prepared index value).storeAsserted index (classify value)

def callAsserted (e : ElementsStorage) : ElementsCall → Option ElementsStorage
  | .set index value => e.setAsserted index.toNat value.1
  | .push value => e.setAsserted e.len value.1
  | .pop => some e.pop.2

/-! ## §2 No assertion fires -/

theorem putAtAsserted_eq {α : Type} {v : List α} {index : Nat} (h : index ≤ v.length) (item : α) :
    putAtAsserted v index item = some (putAt v index item) := by
  unfold putAtAsserted putAt
  split
  · rfl
  · rw [if_pos (by omega)]

theorem storeAsserted_flat {i : Nat} (hf : e.IsFlat) (hi : i ≤ e.slots.length)
    (ha : e.kind.Admits (recode e.kind v)) :
    e.storeAsserted i (classify v) = some (e.store i (classify v)) := by
  cases e with
  | dictionary dict => exact absurd rfl hf
  | packedSmi l =>
    rw [slots, List.length_map] at hi
    obtain ⟨n, -, heq⟩ := ha
    change v = .smi n at heq
    subst heq
    change (putAtAsserted l i n).map packedSmi = _
    rw [putAtAsserted_eq hi]
    rfl
  | holeySmi l =>
    rw [slots] at hi
    rcases ha with heq | ⟨n, -, heq⟩
    · change v = .hole at heq
      subst heq
      change (putAtAsserted l i JsValue.hole).map holeySmi = _
      rw [putAtAsserted_eq hi]
      rfl
    · change v = .smi n at heq
      subst heq
      change (putAtAsserted l i (smiValue n)).map holeySmi = _
      rw [putAtAsserted_eq hi]
      rfl
  | packedDouble l =>
    rw [slots, List.length_map] at hi
    obtain ⟨d, -, heq⟩ := ha
    cases v with
    | smi n =>
      change (putAtAsserted l i (f64OfInt n)).map packedDouble = _
      rw [putAtAsserted_eq hi]
      rfl
    | double d' =>
      change (putAtAsserted l i d').map packedDouble = _
      rw [putAtAsserted_eq hi]
      rfl
    | _ => cases heq
  | holeyDouble l =>
    rw [slots] at hi
    cases v with
    | hole =>
      change (putAtAsserted l i JsValue.hole).map holeyDouble = _
      rw [putAtAsserted_eq hi]
      rfl
    | smi n =>
      change (putAtAsserted l i (fromF64 (f64OfInt n))).map holeyDouble = _
      rw [putAtAsserted_eq hi]
      rfl
    | double d' =>
      change (putAtAsserted l i (fromF64 d')).map holeyDouble = _
      rw [putAtAsserted_eq hi]
      rfl
    | _ =>
      rcases ha with heq | ⟨d, -, heq⟩
      · cases heq
      · cases heq
  | packedObject l =>
    rw [slots] at hi
    change (putAtAsserted l i (classify v).toValue).map packedObject = _
    rw [putAtAsserted_eq hi]
    rfl
  | holeyObject l =>
    rw [slots] at hi
    change (putAtAsserted l i (classify v).toValue).map holeyObject = _
    rw [putAtAsserted_eq hi]
    rfl

theorem prepared_of_escape {i : Nat} (hf : e.IsFlat) (ha : e.SlotsAdmitted)
    (hplan : e.plan (classify v) i = none) :
    e.prepared i v = .dictionary (dictionaryOf e.slots) := by
  simp only [prepared, hplan, convertStorage_dictionary ha hf]
  split <;> rfl

theorem prepared_dictionary (dict : ElementsDictionary) (i : Nat) (v : JsValue) :
    (ElementsStorage.dictionary dict).prepared i v = .dictionary dict := by
  have hplan : (ElementsStorage.dictionary dict).plan (classify v) i = some .dictionary := rfl
  have hkeep : (if ElementsKind.dictionary ≠ (ElementsStorage.dictionary dict).kind then
      (ElementsStorage.dictionary dict).convertStorage .dictionary
      else .dictionary dict) = .dictionary dict := if_neg (not_not.mpr rfl)
  simp only [prepared, hplan, hkeep]
  split <;> rfl

theorem setAsserted_eq (ha : e.SlotsAdmitted) (i : Nat) (hv : v.IsBoxed) :
    e.setAsserted i v = some (e.set i v) := by
  rw [setAsserted, set_eq]
  by_cases hf : e.IsFlat
  · cases hplan : e.plan (classify v) i with
    | some k =>
      obtain ⟨-, hwide, -, hadmits⟩ := plan_flat hf hv hplan
      obtain ⟨hkind, hslots⟩ := prepared_of_plan hf ha hv hplan
      have hflat : (e.prepared i v).IsFlat := by
        unfold IsFlat
        rw [hkind]
        exact hwide.2.2
      have hdense : i ≤ (e.prepared i v).slots.length := by
        rw [hslots, List.length_append, List.length_map, List.length_replicate]
        omega
      exact storeAsserted_flat hflat hdense (by rw [hkind]; exact hadmits)
    | none =>
      rw [prepared_of_escape hf ha hplan]
      rfl
  · cases e with
    | dictionary dict =>
      rw [prepared_dictionary]
      rfl
    | _ => exact absurd (by simp [IsFlat, kind]) hf

/-! ## §3 The rungs -/

end ElementsStorage

/-- Up the lattice: the payload widens, holes stay representable, and any rung may end in the
dictionary. -/
def ElementsKind.Climbs (k target : ElementsKind) : Prop :=
  ElementsStorage.Widens k target ∨ target = .dictionary

theorem ElementsKind.Climbs.refl (k : ElementsKind) : k.Climbs k := by
  cases k with
  | dictionary => exact .inr rfl
  | _ => exact .inl ⟨Nat.le_refl _, id, by simp⟩

namespace ElementsStorage

variable {e : ElementsStorage}

/-- The slots are those of the rung, within the bound a flat vector keeps. -/
structure OnRung (e : ElementsStorage) : Prop where
  admitted : e.SlotsAdmitted
  bounded : e.slots.length ≤ ELEMENTS_TO_DICTIONARY_INDEX

theorem onRung_dictionary (dict : ElementsDictionary) : (ElementsStorage.dictionary dict).OnRung :=
  ⟨(fun u hu => by cases hu), Nat.zero_le _⟩

theorem WellFormed.onRung (h : e.WellFormed) : e.OnRung := by
  cases h with
  | flat hf ha hlen => exact ⟨ha, hlen⟩
  | dictionary hdict => exact onRung_dictionary _

theorem OnRung.set (h : e.OnRung) (i : Nat) {v : JsValue} (hv : v.IsBoxed) :
    (e.set i v).OnRung ∧ e.kind.Climbs (e.set i v).kind := by
  by_cases hf : e.IsFlat
  · cases hplan : e.plan (classify v) i with
    | some k =>
      obtain ⟨-, hwide, -, -⟩ := plan_flat hf hv hplan
      obtain ⟨hkind, -⟩ := set_of_plan hf h.admitted hv hplan
      have hwritten := written_of_plan hf h.admitted h.bounded hv hplan
      have hclimbs : e.kind.Climbs (e.set i v).kind := by
        rw [hkind]
        exact .inl hwide
      exact ⟨hwritten.wellFormed.onRung, hclimbs⟩
    | none =>
      rw [set_of_escape hf h.admitted hv hplan]
      exact ⟨onRung_dictionary _, .inr rfl⟩
  · cases e with
    | dictionary dict =>
      rw [set_dictionary hv]
      exact ⟨onRung_dictionary _, .inr rfl⟩
    | _ => exact absurd (by simp [IsFlat, kind]) hf

/-- What a write does, of a value or of a hole: the length reaches past the index, the index is
present as written, the others as before. -/
structure Stores (e e' : ElementsStorage) (i : Nat) (v : JsValue) : Prop where
  onRung : e'.OnRung
  len : e'.len = max e.len (i + 1)
  reads : ∀ j, Reads (present (e'.getBoxed j)) (if j = i then present (some v) else present (e.getBoxed j))

theorem reads_present_of_reads {u v : Option JsValue} (h : Reads u v) :
    Reads (present u) (present v) := by
  cases h with
  | none => exact .none
  | some h => exact reads_present h

theorem present_present (u : Option JsValue) : present (present u) = present u := by
  unfold present
  simp only [Option.filter_filter, Bool.and_self]

theorem OnRung.stores (h : e.OnRung) {i : Nat} (hi : i + 1 < 2 ^ 32) {v : JsValue}
    (hv : v.IsBoxed) : Stores e (e.set i v) i v := by
  have hrung := (h.set i hv).1
  by_cases hf : e.IsFlat
  · cases hplan : e.plan (classify v) i with
    | some k =>
      have hwritten := written_of_plan hf h.admitted h.bounded hv hplan
      refine ⟨hrung, hwritten.len, fun j => ?_⟩
      have hj := reads_present_of_reads (hwritten.reads j)
      rwa [apply_ite present, present_present] at hj
    | none =>
      have hlen := h.bounded
      unfold ELEMENTS_TO_DICTIONARY_INDEX at hlen
      have hbeyond := plan_none hf h.bounded hplan
      obtain ⟨-, hle, hget⟩ := dictionaryOf_spec (l := e.slots) (by omega)
        fun u hu => (h.admitted u hu).isBoxed
      rw [set_of_escape hf h.admitted hv hplan] at hrung ⊢
      refine ⟨hrung, ?_, fun j => ?_⟩
      · rw [len, ElementsDictionary.length_insert hi, len_eq_of_isFlat hf]
        omega
      · rw [getBoxed, ElementsDictionary.get_insert, hget, getBoxed_eq_of_isFlat hf h.admitted,
          apply_ite present, present_present]
        exact Reads.refl _
  · cases e with
    | dictionary dict =>
      rw [set_dictionary hv] at hrung ⊢
      refine ⟨hrung, ?_, fun j => ?_⟩
      · rw [len, len, ElementsDictionary.length_insert hi]
      · rw [getBoxed, getBoxed, ElementsDictionary.get_insert, apply_ite present]
        exact Reads.refl _
    | _ => exact absurd (by simp [IsFlat, kind]) hf

theorem OnRung.pop (h : e.OnRung) :
    e.pop.2.OnRung ∧ e.kind.Climbs e.pop.2.kind := by
  by_cases hf : e.IsFlat
  · obtain ⟨hkind, hslots⟩ := pop_flat hf
    refine ⟨⟨?_, ?_⟩, ?_⟩
    · intro u hu
      rw [hslots] at hu
      rw [hkind]
      exact h.admitted u (List.dropLast_subset _ hu)
    · have := h.bounded
      rw [hslots, List.length_dropLast]
      omega
    · rw [hkind]
      exact .refl _
  · cases e with
    | dictionary dict => exact ⟨onRung_dictionary _, .inr rfl⟩
    | _ => exact absurd (by simp [IsFlat, kind]) hf

theorem OnRung.call (h : e.OnRung) (c : ElementsCall) :
    (e.call c).OnRung ∧ e.kind.Climbs (e.call c).kind := by
  cases c with
  | set index value => exact h.set index.toNat value.2
  | push value => exact h.set e.len value.2
  | pop => exact h.pop

theorem OnRung.callAsserted (h : e.OnRung) (c : ElementsCall) :
    e.callAsserted c = some (e.call c) := by
  cases c with
  | set index value => exact setAsserted_eq h.admitted index.toNat value.2
  | push value => exact setAsserted_eq h.admitted e.len value.2
  | pop => rfl

/-- What every call finds and leaves: slots of the rung, a rung no lower than before, and no
assertion fired or stray arm taken. -/
structure LatticeKept (e : ElementsStorage) : Prop where
  admitted : e.SlotsAdmitted
  climbs : ∀ c, e.kind.Climbs (e.call c).kind
  asserted : ∀ c, e.callAsserted c = some (e.call c)

/-- **The lattice is kept** by every sequence of calls on a fresh store. -/
theorem lattice_kept (calls : List ElementsCall) :
    (Lib.run call .new calls).LatticeKept := by
  have hrung : (Lib.run call .new calls).OnRung := by
    have hfresh : new.OnRung := ⟨(fun u hu => by cases hu), Nat.zero_le _⟩
    have hsteps : Lib.StepsMeet call (fun _ _ => True) new calls :=
      Lib.stepsMeet_of_forall (fun _ _ => trivial) calls new
    exact Lib.run_invariant (fun s c (hs : s.OnRung) _ => (hs.call c).1) hfresh hsteps
  exact ⟨hrung.admitted, fun c => (hrung.call c).2, hrung.callAsserted⟩

end ElementsStorage

end V12.Heap
