/-
V12.Heap.ElementsSnapshot — the positional snapshot of an object's elements
and the rebuild from it, from `v12-heap/src/object.rs`.

A snapshot of a dictionary lists the values as the hash map iterates them,
an order that is a parameter. A rebuild writes a flat snapshot back value by
value, and a small integer written between doubles becomes one.
`roundTrips_iff`: they keep what they keep exactly of the positional stores.
-/
import V12.Heap.ElementsLattice
import Mathlib.Data.List.Induction
import Mathlib.Data.List.TakeWhile
import Mathlib.Data.Finset.Card
import Mathlib.Data.Finset.Range
import Mathlib.Order.Interval.Finset.Nat

namespace V12.Heap

open JsValue

variable {k : ElementsKind} {l : List JsValue}

/-! ## §1 The element accessors of an object -/

abbrev IterationOrder : Type := ElementsDictionary → List (Nat × JsValue)

def IterationOrder.Visits (order : IterationOrder) : Prop :=
  ∀ dict, (order dict).Perm dict.entries

/-- `ElementsArray::iter`: the slots of a vector, the entries of a dictionary. -/
def ElementsStorage.iter (order : IterationOrder) : ElementsStorage → List JsValue
  | .packedSmi v => v.map smiValue
  | .packedDouble v => v.map fromF64
  | .holeySmi v | .holeyDouble v | .packedObject v | .holeyObject v => v
  | .dictionary dict => (order dict).map Prod.snd

/-- The loop of `replace_elements` on an array: the values are set one after the other. -/
def ElementsStorage.rebuild (values : List JsValue) : ElementsStorage :=
  values.zipIdx.foldl (fun e p => e.set (p.2 % 2 ^ 32) p.1) .new

namespace JsObject

/-- `get_element`. -/
def getElement (o : JsObject) (idx : Nat) : Option JsValue :=
  if o.kind = .array then o.elementsArray.getBoxed idx
  else o.elements[idx]?.filter fun v => !v.isHole

/-- `element_len`. -/
def elementLen (o : JsObject) : Nat :=
  if o.kind = .array then o.elementsArray.len else o.elements.length

/-- `elements_snapshot`. -/
def elementsSnapshot (order : IterationOrder) (o : JsObject) : List JsValue :=
  if o.kind = .array then o.elementsArray.iter order else o.elements

/-- `set_element`; off an array a write far above the stored region is dropped. -/
def setElement (o : JsObject) (idx : Nat) (value : JsValue) : JsObject :=
  if o.kind = .array then { o with elementsArray := o.elementsArray.set idx value }
  else if idx < o.elements.length then { o with elements := o.elements.set idx value }
  else if idx - o.elements.length > ELEMENTS_TO_DICTIONARY_INDEX then o
  else { o with
    elements := o.elements ++ List.replicate (idx - o.elements.length) .hole ++ [value] }

/-- `delete_element`. -/
def deleteElement (o : JsObject) (idx : Nat) : JsObject :=
  if o.kind = .array then { o with elementsArray := o.elementsArray.set idx .hole }
  else { o with elements := o.elements.set idx .hole }

/-- `replace_elements`. -/
def replaceElements (o : JsObject) (values : List JsValue) : JsObject :=
  if o.kind = .array then { o with elementsArray := .rebuild values }
  else { o with elements := values }

end JsObject

/-- A change to an object's elements; an index is a `u32`. -/
inductive ElementWrite where
  | set (idx : UInt32) (value : Boxed)
  | delete (idx : UInt32)

namespace JsObject

def write (o : JsObject) : ElementWrite → JsObject
  | .set idx value => o.setElement idx.toNat value.1
  | .delete idx => o.deleteElement idx.toNat

def fresh (kind : Kind) : JsObject := { (default : JsObject) with kind := kind }

/-- The elements in ascending index order, holes at the absent positions. -/
def positions (o : JsObject) : List JsValue :=
  (List.range o.elementLen).map fun i => (o.getElement i).getD .hole

/-- The snapshot is positional and rebuilding from it changes no element, whichever order the
map is iterated in. -/
def RoundTrips (o : JsObject) : Prop :=
  ∀ order : IterationOrder, order.Visits →
    o.elementsSnapshot order = o.positions ∧
      ∀ i : UInt32, (o.replaceElements (o.elementsSnapshot order)).getElement i.toNat =
        o.getElement i.toNat

end JsObject

/-! ## §2 Positional stores -/

/-- Neither a number nor a hole: what the object rungs are for. -/
def JsValue.isOther (v : JsValue) : Bool := !v.isHole && !v.asSmi.isSome && !v.asF64.isSome

/-- The slots before the first that the object rungs are for. -/
def numbersFirst (l : List JsValue) : List JsValue := l.takeWhile fun v => !v.isOther

/-- Small integers and doubles together before the first other value. -/
def mixes (l : List JsValue) : Bool :=
  (numbersFirst l).any (fun v => v.asF64.isSome) && (numbersFirst l).any fun v => v.asSmi.isSome

/-- Every index below the length is present, all with one value that is no hole. -/
def ElementsDictionary.Uniform (dict : ElementsDictionary) : Prop :=
  dict.entries.length = dict.length ∧
    ∃ v, v ≠ .hole ∧ ∀ i, i < dict.length → dict.get i = some v

/-- A vector whose leading numbers are of one encoding, or a uniform dictionary. -/
def ElementsStorage.Positional : ElementsStorage → Prop
  | .dictionary dict => dict.Uniform
  | e => mixes e.slots = false

/-- Off the arrays the elements are a plain vector. -/
def JsObject.Positional (o : JsObject) : Prop := o.kind = .array → o.elementsArray.Positional

/-! ## §3 Rebuilding a vector -/

/-- What the leading numbers become in a rebuild, once a double is among them. -/
def refold (l : List JsValue) : List JsValue :=
  if (numbersFirst l).any (fun v => v.asF64.isSome) then
    (numbersFirst l).map (ElementsStorage.recode .holeyDouble) ++ l.dropWhile fun v => !v.isOther
  else l

namespace ElementsKind

def payload : ElementsKind → Nat
  | .packedSmi | .holeySmi => 0
  | .packedDouble | .holeyDouble => 1
  | .packedObject | .holeyObject | .dictionary => 2

end ElementsKind

def JsValue.payload (v : JsValue) : Nat :=
  if v.isOther then 2 else if v.asF64.isSome then 1 else 0

def payloadOf (l : List JsValue) : Nat :=
  if l.any JsValue.isOther then 2 else if l.any (fun v => v.asF64.isSome) then 1 else 0

theorem payload_joinKind (hk : k ≠ .dictionary) (v : JsValue) :
    (ElementsStorage.joinKind k (ElementsStorage.minimumKind k (classify v)) false).payload =
      max k.payload v.payload := by
  cases v <;> cases k <;> first | exact absurd rfl hk | rfl

theorem payloadOf_concat (l : List JsValue) (v : JsValue) :
    payloadOf (l ++ [v]) = max (payloadOf l) v.payload := by
  unfold payloadOf JsValue.payload
  simp only [List.any_append, List.any_cons, List.any_nil, Bool.or_false]
  cases l.any JsValue.isOther <;> cases v.isOther <;>
    cases l.any (fun v => v.asF64.isSome) <;> cases v.asF64.isSome <;> rfl

theorem recode_of_payload (h : k.payload = 1) :
    ElementsStorage.recode k = ElementsStorage.recode .holeyDouble := by
  cases k with
  | packedDouble => funext u; cases u <;> rfl
  | holeyDouble => rfl
  | _ => cases h

theorem recode_eq_id (h : k.payload ≠ 1) :
    ElementsStorage.recode k = id := by
  cases k with
  | packedDouble => exact absurd rfl h
  | holeyDouble => exact absurd rfl h
  | _ => funext u; cases u <;> rfl

theorem recode_recode (u : JsValue) :
    ElementsStorage.recode .holeyDouble (ElementsStorage.recode .holeyDouble u) =
      ElementsStorage.recode .holeyDouble u := by
  cases u <;> rfl

theorem numbersFirst_eq_self (h : l.any JsValue.isOther = false) :
    numbersFirst l = l := by
  rw [numbersFirst, List.takeWhile_eq_self_iff]
  intro v hv
  rw [List.any_eq_false] at h
  simpa using h v hv

theorem dropWhile_eq_nil (h : l.any JsValue.isOther = false) :
    (l.dropWhile fun v => !v.isOther) = [] := by
  rw [List.dropWhile_eq_nil_iff]
  intro v hv
  rw [List.any_eq_false] at h
  simpa using h v hv

theorem refold_of_numbers (h : l.any JsValue.isOther = false) :
    refold l = if payloadOf l = 1 then l.map (ElementsStorage.recode .holeyDouble) else l := by
  unfold refold payloadOf
  rw [numbersFirst_eq_self h, dropWhile_eq_nil h, h]
  cases l.any (fun v => v.asF64.isSome) <;> simp

theorem takeWhile_append_of_any {p : JsValue → Bool} (h : l.any (fun v => !p v) = true)
    (m : List JsValue) :
    (l ++ m).takeWhile p = l.takeWhile p ∧ (l ++ m).dropWhile p = l.dropWhile p ++ m := by
  induction l with
  | nil => cases h
  | cons x xs ih =>
    cases hx : p x with
    | false => simp [hx]
    | true =>
      have hxs : xs.any (fun v => !p v) = true := by simpa [hx] using h
      simpa [hx] using ih hxs

theorem refold_concat_of_other (h : l.any JsValue.isOther = true) (v : JsValue) :
    refold (l ++ [v]) = refold l ++ [v] := by
  have hany : l.any (fun v => !(fun v : JsValue => !v.isOther) v) = true := by simpa using h
  obtain ⟨htake, hdrop⟩ := takeWhile_append_of_any hany [v]
  unfold refold numbersFirst
  rw [htake, hdrop]
  split
  · rw [List.append_assoc]
  · rfl

theorem refold_concat_other (h : l.any JsValue.isOther = false) {v : JsValue}
    (hv : v.isOther = true) : refold (l ++ [v]) = refold l ++ [v] := by
  have htake : numbersFirst (l ++ [v]) = numbersFirst l := by
    have hself := numbersFirst_eq_self h
    rw [hself, numbersFirst, List.takeWhile_append]
    unfold numbersFirst at hself
    rw [hself]
    simp [hv]
  have hdrop : ((l ++ [v]).dropWhile fun v => !v.isOther) = [v] := by
    rw [List.dropWhile_append, dropWhile_eq_nil h]
    simp [hv]
  unfold refold
  rw [htake, hdrop, dropWhile_eq_nil h, List.append_nil]
  split <;> rfl

namespace ElementsStorage

theorem rebuild_concat (l : List JsValue) (v : JsValue) :
    rebuild (l ++ [v]) = (rebuild l).set (l.length % 2 ^ 32) v := by
  rw [rebuild, List.zipIdx_append, List.foldl_append]
  simp [rebuild]

/-- What a rebuild of a short vector is. -/
structure Rebuilt (l : List JsValue) (e : ElementsStorage) : Prop where
  flat : e.IsFlat
  admitted : e.SlotsAdmitted
  payload : e.kind.payload = payloadOf l
  slots : e.slots = refold l

theorem length_refold (l : List JsValue) : (refold l).length = l.length := by
  unfold refold
  split
  · rw [List.length_append, List.length_map, ← List.length_append, numbersFirst,
      List.takeWhile_append_dropWhile]
  · rfl

theorem plan_dense {e : ElementsStorage} (hf : e.IsFlat)
    (hlen : e.slots.length < ELEMENTS_TO_DICTIONARY_INDEX) (cls : ValueClass) :
    e.plan cls e.slots.length = some (joinKind e.kind (minimumKind e.kind cls) false) := by
  have hnear : ¬ (e.slots.length ≥ ELEMENTS_TO_DICTIONARY_INDEX ∨
      e.slots.length - e.len > MAX_FAST_ELEMENT_GAP) := by
    rw [len_eq_of_isFlat hf, Nat.sub_self]
    unfold MAX_FAST_ELEMENT_GAP
    omega
  have hgap : decide (e.slots.length > e.fastLen) = false := by simp
  simp only [plan, isDictionary_of_isFlat hf, Bool.false_eq_true, if_false, if_neg hnear, hgap]

theorem putAt_length {α : Type} (l : List α) (u : α) : putAt l l.length u = l ++ [u] :=
  if_neg (Nat.lt_irrefl _)

theorem Rebuilt.concat {l : List JsValue} {e : ElementsStorage} (h : Rebuilt l e) {v : JsValue}
    (hlen : l.length < ELEMENTS_TO_DICTIONARY_INDEX) (hv : v.IsBoxed) :
    Rebuilt (l ++ [v]) (e.set l.length v) := by
  have hslots : e.slots.length = l.length := by rw [h.slots, length_refold]
  have hplan := plan_dense h.flat (hslots ▸ hlen) (classify v)
  rw [hslots] at hplan
  generalize hk : joinKind e.kind (minimumKind e.kind (classify v)) false = k at hplan
  have hpayload : k.payload = payloadOf (l ++ [v]) := by
    rw [← hk, payload_joinKind h.flat, h.payload, payloadOf_concat]
  obtain ⟨hkind, hset⟩ := set_of_plan h.flat h.admitted hv hplan
  obtain ⟨-, hwide, -, -⟩ := plan_flat h.flat hv hplan
  have hmap : (e.slots.map (recode k)).length = l.length := by rw [List.length_map, hslots]
  rw [hslots, Nat.sub_self, List.replicate_zero, List.append_nil, ← hmap, putAt_length, hmap,
    h.slots] at hset
  refine ⟨?_, ?_, by rw [hkind, hpayload], ?_⟩
  · unfold IsFlat
    rw [hkind]
    exact hwide.2.2
  · have hwritten := written_of_plan h.flat h.admitted (hslots ▸ Nat.le_of_lt hlen) hv hplan
    exact hwritten.wellFormed.onRung.admitted
  · rw [hset]
    by_cases hp : payloadOf (l ++ [v]) = 1
    · -- a double rung: everything so far is a number, and every one is widened
      have hnum : (l ++ [v]).any JsValue.isOther = false := by
        cases hany : (l ++ [v]).any JsValue.isOther with
        | false => rfl
        | true => simp [payloadOf, hany] at hp
      have hl : l.any JsValue.isOther = false := by
        rw [List.any_append, Bool.or_eq_false_iff] at hnum
        exact hnum.1
      rw [refold_of_numbers hnum, if_pos hp, recode_of_payload (hpayload.trans hp),
        refold_of_numbers hl, List.map_append, List.map_singleton]
      split
      · rw [List.map_map]
        congr 1
        exact List.map_congr_left fun u _ => recode_recode u
      · rfl
    · rw [recode_eq_id (by rw [hpayload]; exact hp), List.map_id, id]
      cases hl : l.any JsValue.isOther with
      | true => rw [refold_concat_of_other hl]
      | false =>
        cases hv' : v.isOther with
        | true => rw [refold_concat_other hl hv']
        | false =>
          have hnum : (l ++ [v]).any JsValue.isOther = false := by simp [hl, hv']
          have hzero : payloadOf l ≠ 1 := by
            intro hone
            have hle : v.payload ≤ 1 := by
              simp only [JsValue.payload, hv', Bool.false_eq_true, if_false]
              split <;> omega
            rw [payloadOf_concat, hone] at hp
            omega
          rw [refold_of_numbers hnum, if_neg hp, refold_of_numbers hl, if_neg hzero]

/-- **A vector of boxed values is rebuilt** on the rung of its payload. -/
theorem rebuilt {l : List JsValue} (hlen : l.length ≤ ELEMENTS_TO_DICTIONARY_INDEX)
    (hb : ∀ v ∈ l, v.IsBoxed) : Rebuilt l (rebuild l) := by
  induction l using List.reverseRecOn with
  | nil => exact ⟨by decide, (fun u hu => by cases hu), rfl, rfl⟩
  | append_singleton l v ih =>
    rw [List.length_append, List.length_singleton] at hlen
    have hsmall : l.length % 2 ^ 32 = l.length := by
      unfold ELEMENTS_TO_DICTIONARY_INDEX at hlen
      omega
    rw [rebuild_concat, hsmall]
    refine (ih (by omega) fun u hu => hb u (by simp [hu])).concat (by omega) (hb v (by simp))

end ElementsStorage

/-! ## §4 The dictionary as a set of entries -/

namespace ElementsDictionary

variable {dict : ElementsDictionary}

/-- One entry an index, of boxed values, under a length that saturates below `2 ^ 32`. -/
structure Entered (dict : ElementsDictionary) : Prop where
  nodup : dict.keys.Nodup
  le : ∀ k ∈ dict.keys, k ≤ dict.length
  small : dict.length < 2 ^ 32
  boxed : ∀ e ∈ dict.entries, e.2.IsBoxed

theorem entered_new : Entered new where
  nodup := List.nodup_nil
  le k hk := by cases hk
  small := by decide
  boxed e he := by cases he

theorem Entered.insert (h : dict.Entered) {index : Nat} (hi : index < 2 ^ 32) {v : JsValue}
    (hv : v.IsBoxed) : (dict.insert index v).Entered := by
  have hkeys : (dict.insert index v).keys = index :: dict.keys.filter fun k => k ≠ index := by
    simp only [keys, ElementsDictionary.insert, List.map_cons, List.filter_map, Function.comp_def]
  refine ⟨?_, ?_, ?_, ?_⟩
  · rw [hkeys, List.nodup_cons]
    exact ⟨by simp, h.nodup.filter _⟩
  · intro k hk
    rw [hkeys] at hk
    change k ≤ max dict.length (saturatingSucc index)
    unfold saturatingSucc
    rcases List.mem_cons.mp hk with rfl | hk
    · omega
    · have := h.le k (List.mem_filter.mp hk).1
      omega
  · have := h.small
    change max dict.length (saturatingSucc index) < 2 ^ 32
    unfold saturatingSucc
    omega
  · intro e he
    rcases List.mem_cons.mp he with rfl | he
    · exact hv
    · exact h.boxed e (List.mem_filter.mp he).1

theorem Entered.get_of_mem (h : dict.Entered) {k : Nat} {v : JsValue}
    (hmem : (k, v) ∈ dict.entries) : dict.get k = some v := by
  have hnodup := h.nodup
  unfold keys at hnodup
  unfold get
  revert hmem hnodup
  induction dict.entries with
  | nil => intro hmem; cases hmem
  | cons e es ih =>
    intro hmem hnodup
    obtain ⟨k', v'⟩ := e
    rw [List.map_cons, List.nodup_cons] at hnodup
    rcases List.mem_cons.mp hmem with heq | hrest
    · cases heq
      simp
    · have hkey : k ∈ es.map Prod.fst := List.mem_map_of_mem hrest
      have hne : (k == k') = false := by
        rw [beq_eq_false_iff_ne]
        intro heq
        exact hnodup.1 (heq ▸ hkey)
      rw [List.lookup_cons, hne]
      exact ih hrest hnodup.2

theorem length_keys (dict : ElementsDictionary) : dict.keys.length = dict.entries.length :=
  List.length_map _

theorem Entered.exists_key_lt (h : dict.Entered) (hcount : dict.entries.length = dict.length)
    {bound : Nat} (hpos : 1 < bound) (hbound : bound < dict.length) :
    ∃ k ∈ dict.keys, k < bound := by
  by_contra hnone
  push Not at hnone
  have hsub : dict.keys.toFinset ⊆ Finset.Ico bound (dict.length + 1) := by
    intro k hk
    rw [List.mem_toFinset] at hk
    have hle := h.le k hk
    have hge := hnone k hk
    rw [Finset.mem_Ico]
    omega
  have hcard := Finset.card_le_card hsub
  rw [List.toFinset_card_of_nodup h.nodup, length_keys, hcount, Nat.card_Ico] at hcard
  omega

theorem Entered.keys_lt (h : dict.Entered) (hcount : dict.entries.length = dict.length)
    (hall : ∀ i, i < dict.length → dict.get i ≠ none) {k : Nat} (hk : k ∈ dict.keys) :
    k < dict.length := by
  have hsub : Finset.range dict.length ⊆ dict.keys.toFinset := by
    intro i hi
    rw [List.mem_toFinset]
    exact get_ne_none.mp (hall i (Finset.mem_range.mp hi))
  have hcard : dict.keys.toFinset.card ≤ (Finset.range dict.length).card := by
    rw [List.toFinset_card_of_nodup h.nodup, length_keys, hcount, Finset.card_range]
  have heq := Finset.eq_of_subset_of_card_le hsub hcard
  rw [← List.mem_toFinset, ← heq] at hk
  exact Finset.mem_range.mp hk

end ElementsDictionary

namespace ElementsStorage

variable {l : List JsValue} {v : JsValue}

theorem entered_dictionaryOf (hlen : l.length ≤ ELEMENTS_TO_DICTIONARY_INDEX)
    (hb : ∀ v ∈ l, v.IsBoxed) : (dictionaryOf l).Entered := by
  induction l using List.reverseRecOn with
  | nil => exact ElementsDictionary.entered_new
  | append_singleton l v ih =>
    rw [List.length_append, List.length_singleton] at hlen
    have hrest := ih (by omega) fun u hu => hb u (by simp [hu])
    rw [dictionaryOf_concat]
    split
    · exact hrest
    · refine hrest.insert ?_ (hb v (by simp))
      unfold ELEMENTS_TO_DICTIONARY_INDEX at hlen
      omega

/-- A store that writes and deletions built: a vector of its rung, or a dictionary with one
entry an index. -/
def Built : ElementsStorage → Prop
  | .dictionary dict => dict.Entered
  | e => e.OnRung

theorem Built.onRung {e : ElementsStorage} (h : e.Built) : e.OnRung := by
  cases e with
  | dictionary dict => exact onRung_dictionary dict
  | _ => exact h

theorem built_of_isFlat {e : ElementsStorage} (hf : e.IsFlat) (h : e.OnRung) : e.Built := by
  cases e with
  | dictionary dict => exact absurd rfl hf
  | _ => exact h

theorem Built.set {e : ElementsStorage} (h : e.Built) {i : Nat} (hi : i < 2 ^ 32) (hv : v.IsBoxed) :
    (e.set i v).Built := by
  by_cases hf : e.IsFlat
  · have hrung := h.onRung
    cases hplan : e.plan (classify v) i with
    | some k =>
      obtain ⟨-, hwide, -, -⟩ := plan_flat hf hv hplan
      obtain ⟨hkind, -⟩ := set_of_plan hf hrung.admitted hv hplan
      refine built_of_isFlat ?_ (hrung.set i hv).1
      unfold IsFlat
      rw [hkind]
      exact hwide.2.2
    | none =>
      rw [set_of_escape hf hrung.admitted hv hplan]
      refine (entered_dictionaryOf hrung.bounded ?_).insert hi hv
      exact fun u hu => (hrung.admitted u hu).isBoxed
  · cases e with
    | dictionary dict =>
      rw [set_dictionary hv]
      exact ElementsDictionary.Entered.insert h hi hv
    | _ => exact absurd (by simp [IsFlat, kind]) hf

/-! ## §5 Rebuilding past the bound of a vector -/

/-- What a rebuild reads: a vector while it is short, then a dictionary. -/
structure RebuiltReads (l : List JsValue) (e : ElementsStorage) : Prop where
  reads : ∀ i, e.getBoxed i = l[i]?
  long : ELEMENTS_TO_DICTIONARY_INDEX < l.length → ¬ e.IsFlat

theorem numbersFirst_concat_any {p : JsValue → Bool} (h : (numbersFirst l).any p = true) :
    (numbersFirst (l ++ [v])).any p = true := by
  obtain ⟨u, hu, hp⟩ := List.any_eq_true.mp h
  refine List.any_eq_true.mpr ⟨u, ?_, hp⟩
  unfold numbersFirst at hu ⊢
  rw [List.takeWhile_append]
  split
  · exact List.mem_append_left _ ((List.takeWhile_sublist _).mem hu)
  · exact hu

theorem mixes_of_concat (h : mixes (l ++ [v]) = false) :
    mixes l = false := by
  by_contra hm
  rw [Bool.not_eq_false, mixes, Bool.and_eq_true] at hm
  have hboth : mixes (l ++ [v]) = true := by
    rw [mixes, Bool.and_eq_true]
    exact ⟨numbersFirst_concat_any hm.1, numbersFirst_concat_any hm.2⟩
  rw [h] at hboth
  cases hboth

theorem refold_eq_self (h : mixes l = false) : refold l = l := by
  unfold refold
  split
  · rename_i hdouble
    have hsmi : (numbersFirst l).any (fun v => v.asSmi.isSome) = false := by
      simpa [mixes, hdouble] using h
    have hkeep : (numbersFirst l).map (recode .holeyDouble) = numbersFirst l := by
      conv_rhs => rw [← List.map_id (numbersFirst l)]
      apply List.map_congr_left
      intro u hu
      rw [List.any_eq_false] at hsmi
      have hu' := hsmi u hu
      cases u with
      | smi n => simp [asSmi] at hu'
      | _ => rfl
    rw [hkeep]
    exact List.takeWhile_append_dropWhile
  · rfl

theorem exists_refold_ne (h : mixes l = true) :
    ∃ i < l.length, present (refold l)[i]? ≠ present l[i]? := by
  rw [mixes, Bool.and_eq_true] at h
  obtain ⟨hdouble, hsmi⟩ := h
  obtain ⟨u, hu, hsome⟩ := List.any_eq_true.mp hsmi
  obtain ⟨i, hi, rfl⟩ := List.mem_iff_getElem.mp hu
  have hsplit : l = numbersFirst l ++ l.dropWhile fun v => !v.isOther :=
    List.takeWhile_append_dropWhile.symm
  have hlt : i < l.length := by
    rw [hsplit, List.length_append]
    omega
  have hleft : l[i]? = some (numbersFirst l)[i] := by
    conv_lhs => rw [hsplit]
    rw [List.getElem?_append_left hi, List.getElem?_eq_getElem hi]
  have hright : (refold l)[i]? = some (recode .holeyDouble (numbersFirst l)[i]) := by
    unfold refold
    rw [if_pos hdouble, List.getElem?_append_left (by rw [List.length_map]; exact hi),
      List.getElem?_map, List.getElem?_eq_getElem hi]
    rfl
  refine ⟨i, hlt, ?_⟩
  rw [hleft, hright]
  cases hval : (numbersFirst l)[i] with
  | smi n =>
    intro heq
    cases heq
  | _ => simp [hval, asSmi] at hsome

theorem rebuiltReads (hlen : l.length < 2 ^ 32) (hb : ∀ v ∈ l, v.IsBoxed)
    (hholes : ∀ v ∈ l, v ≠ .hole) (hmix : mixes l = false) : RebuiltReads l (rebuild l) := by
  have hshort {l : List JsValue} (hlen : l.length ≤ ELEMENTS_TO_DICTIONARY_INDEX)
      (hb : ∀ v ∈ l, v.IsBoxed) (hholes : ∀ v ∈ l, v ≠ .hole) (hmix : mixes l = false) :
      RebuiltReads l (rebuild l) := by
    have hr := rebuilt hlen hb
    refine ⟨fun i => ?_, fun hgt => absurd hlen (Nat.not_le_of_lt hgt)⟩
    rw [getBoxed_eq_of_isFlat hr.flat hr.admitted, hr.slots, refold_eq_self hmix]
    apply present_of_ne_hole
    intro heq
    exact hholes .hole (List.mem_of_getElem? heq) rfl
  induction l using List.reverseRecOn with
  | nil => exact hshort (Nat.zero_le _) hb hholes hmix
  | append_singleton l v ih =>
    by_cases hle : (l ++ [v]).length ≤ ELEMENTS_TO_DICTIONARY_INDEX
    · exact hshort hle hb hholes hmix
    · rw [List.length_append, List.length_singleton] at hlen hle
      have hl : ∀ u ∈ l, u.IsBoxed := fun u hu => hb u (by simp [hu])
      have hv : v.IsBoxed := hb v (by simp)
      have hread (dict : ElementsDictionary) (hget : ∀ i, dict.get i = l[i]?) (i : Nat) :
          (dict.insert l.length v).get i = (l ++ [v])[i]? := by
        rw [ElementsDictionary.get_insert, hget, List.getElem?_append]
        by_cases hi : i = l.length
        · subst hi
          simp
        · rw [if_neg hi]
          split
          · rfl
          · rw [List.getElem?_eq_none (by omega), List.getElem?_eq_none (by simp; omega)]
      rw [rebuild_concat, Nat.mod_eq_of_lt (by omega)]
      by_cases hfull : l.length ≤ ELEMENTS_TO_DICTIONARY_INDEX
      · -- the last write that finds a vector: it escapes at the bound
        have hr := rebuilt hfull hl
        have hslots : (rebuild l).slots = l := by
          rw [hr.slots, refold_eq_self (mixes_of_concat hmix)]
        have hplan : (rebuild l).plan (classify v) l.length = none := by
          simp only [plan, isDictionary_of_isFlat hr.flat, Bool.false_eq_true, if_false]
          exact if_pos (.inl (by omega))
        have hbound : l.length < 2 ^ 32 := by omega
        obtain ⟨-, -, hget⟩ := dictionaryOf_spec hbound hl
        rw [set_of_escape hr.flat hr.admitted hv hplan, hslots]
        refine ⟨fun i => hread _ (fun j => ?_) i, fun _ hflat => hflat rfl⟩
        rw [hget]
        apply present_of_ne_hole
        intro heq
        exact hholes .hole (by simp [List.mem_of_getElem? heq]) rfl
      · have hrest := ih (by omega) hl (fun u hu => hholes u (by simp [hu])) (mixes_of_concat hmix)
        have hdict := hrest.long (by omega)
        have hreads := hrest.reads
        revert hdict hreads
        cases rebuild l with
        | dictionary dict =>
          intro _ hreads
          rw [set_dictionary hv]
          exact ⟨hread dict hreads, fun _ hflat => hflat rfl⟩
        | _ => exact fun hdict => absurd (by simp [IsFlat, kind]) hdict

theorem mixes_replicate (n : Nat) (v : JsValue) : mixes (List.replicate n v) = false := by
  by_contra hm
  rw [Bool.not_eq_false, mixes, Bool.and_eq_true] at hm
  obtain ⟨u, hu, hdouble⟩ := List.any_eq_true.mp hm.1
  obtain ⟨w, hw, hsmi⟩ := List.any_eq_true.mp hm.2
  have hu' := List.eq_of_mem_replicate ((List.takeWhile_sublist _).mem hu)
  have hw' := List.eq_of_mem_replicate ((List.takeWhile_sublist _).mem hw)
  subst hu' hw'
  cases w <;> simp [asF64, asSmi] at hdouble hsmi

theorem getBoxed_rebuild_holes : ∀ {n : Nat}, n < 2 ^ 32 → ∀ {k : Nat},
    k < ELEMENTS_TO_DICTIONARY_INDEX ∨ n ≤ ELEMENTS_TO_DICTIONARY_INDEX →
      (rebuild (List.replicate n .hole)).getBoxed k = none ∧
        (ELEMENTS_TO_DICTIONARY_INDEX < n → ¬ (rebuild (List.replicate n .hole)).IsFlat) := by
  have hshort {n k : Nat} (hn : n ≤ ELEMENTS_TO_DICTIONARY_INDEX) :
      (rebuild (List.replicate n .hole)).getBoxed k = none := by
    have hb : ∀ v ∈ List.replicate n JsValue.hole, v.IsBoxed := by
      intro v hv
      rw [List.eq_of_mem_replicate hv]
      exact trivial
    have hr := rebuilt (by rw [List.length_replicate]; exact hn) hb
    rw [getBoxed_eq_of_isFlat hr.flat hr.admitted, hr.slots, refold_eq_self (mixes_replicate _ _),
      List.getElem?_replicate]
    split <;> rfl
  intro n
  induction n with
  | zero => exact fun _ k _ => ⟨hshort (Nat.zero_le _), fun h => absurd h (Nat.not_lt_zero _)⟩
  | succ n ih =>
    intro hn k hk
    by_cases hle : n + 1 ≤ ELEMENTS_TO_DICTIONARY_INDEX
    · exact ⟨hshort hle, fun h => absurd hle (Nat.not_le_of_lt h)⟩
    · have hk' : k < ELEMENTS_TO_DICTIONARY_INDEX := by omega
      rw [List.replicate_succ', rebuild_concat, List.length_replicate,
        Nat.mod_eq_of_lt (by omega)]
      by_cases hfull : n ≤ ELEMENTS_TO_DICTIONARY_INDEX
      · have hb : ∀ v ∈ List.replicate n JsValue.hole, v.IsBoxed := by
          intro v hv
          rw [List.eq_of_mem_replicate hv]
          exact trivial
        have hr := rebuilt (by rw [List.length_replicate]; exact hfull) hb
        have hslots : (rebuild (List.replicate n .hole)).slots = List.replicate n .hole := by
          rw [hr.slots, refold_eq_self (mixes_replicate _ _)]
        have hplan : (rebuild (List.replicate n .hole)).plan (classify .hole) n = none := by
          simp only [plan, isDictionary_of_isFlat hr.flat, Bool.false_eq_true, if_false]
          exact if_pos (.inl (by omega))
        have hbound : (List.replicate n JsValue.hole).length < 2 ^ 32 := by
          rw [List.length_replicate]
          omega
        obtain ⟨-, -, hget⟩ := dictionaryOf_spec hbound hb
        rw [set_of_escape hr.flat hr.admitted (v := .hole) trivial hplan, hslots]
        refine ⟨?_, fun _ hflat => hflat rfl⟩
        rw [getBoxed, ElementsDictionary.get_insert, if_neg (by omega), hget,
          List.getElem?_replicate]
        split <;> rfl
      · obtain ⟨hread, hdict⟩ := ih (by omega) (.inl hk')
        have hdict := hdict (by omega)
        revert hread hdict
        cases rebuild (List.replicate n .hole) with
        | dictionary dict =>
          intro hread _
          rw [set_dictionary (v := .hole) trivial]
          refine ⟨?_, fun _ hflat => hflat rfl⟩
          rw [getBoxed, ElementsDictionary.get_insert, if_neg (by omega)]
          exact hread
        | _ => exact fun _ hdict => absurd (by simp [IsFlat, kind]) hdict

theorem iter_of_isFlat {e : ElementsStorage} (hf : e.IsFlat) (order : IterationOrder) :
    e.iter order = e.slots := by
  cases e with
  | dictionary dict => exact absurd rfl hf
  | _ => rfl

theorem positional_of_isFlat {e : ElementsStorage} (hf : e.IsFlat) :
    e.Positional ↔ mixes e.slots = false := by
  cases e with
  | dictionary dict => exact absurd rfl hf
  | _ => rfl

end ElementsStorage

/-! ## §6 Objects -/

theorem map_range_present (l : List JsValue) :
    ((List.range l.length).map fun i => (present l[i]?).getD .hole) = l := by
  apply List.ext_getElem
  · simp
  · intro i hi hi'
    simp only [List.getElem_map, List.getElem_range, List.getElem?_eq_getElem hi', present_some]
    cases l[i] <;> rfl

namespace ElementsDictionary

theorem Uniform.iterated {dict : ElementsDictionary} (hu : dict.Uniform) (h : dict.Entered) :
    ∃ v, v ≠ .hole ∧ (∀ l : List (Nat × JsValue), l.Perm dict.entries →
      l.map Prod.snd = List.replicate dict.length v) ∧
      ∀ i, dict.get i = (List.replicate dict.length v)[i]? := by
  obtain ⟨hcount, v, hv, hall⟩ := hu
  have hlt {k : Nat} (hk : k ∈ dict.keys) : k < dict.length := by
    refine h.keys_lt hcount (fun i hi => ?_) hk
    rw [hall i hi]
    simp
  refine ⟨v, hv, ?_, ?_⟩
  · intro l hl
    rw [List.eq_replicate_iff]
    refine ⟨by rw [List.length_map, hl.length_eq, hcount], ?_⟩
    intro w hw
    obtain ⟨⟨k, u⟩, hmem, rfl⟩ := List.mem_map.mp hw
    have hentry := hl.mem_iff.mp hmem
    have hget := h.get_of_mem hentry
    rw [hall k (hlt (List.mem_map_of_mem hentry))] at hget
    exact (Option.some.inj hget).symm
  · intro i
    rw [List.getElem?_replicate]
    split
    · rename_i hi
      exact hall i hi
    · rename_i hi
      by_contra hsome
      exact hi (hlt (get_ne_none.mp hsome))

theorem value_eq_of_perm {dict : ElementsDictionary} {c : List JsValue}
    (h : ∀ l : List (Nat × JsValue), l.Perm dict.entries → l.map Prod.snd = c)
    {e e' : Nat × JsValue} (he : e ∈ dict.entries) (he' : e' ∈ dict.entries) : e.2 = e'.2 := by
  have hhead {e : Nat × JsValue} (he : e ∈ dict.entries) : c.head? = some e.2 := by
    rw [← h _ (List.perm_cons_erase he).symm]
    rfl
  have heq := hhead he
  rw [hhead he'] at heq
  exact (Option.some.inj heq).symm

end ElementsDictionary

namespace JsObject

variable {o : JsObject}

theorem uniform_of_roundTrips {dict : ElementsDictionary} (harray : o.kind = .array)
    (hdict : o.elementsArray = .dictionary dict) (h : dict.Entered) (ho : o.RoundTrips) :
    dict.Uniform := by
  have hlist : ∀ l : List (Nat × JsValue), l.Perm dict.entries →
      l.map Prod.snd = o.positions := by
    intro l hl
    let order : IterationOrder := fun d => if d.entries = dict.entries then l else d.entries
    have hvisits : order.Visits := by
      intro d
      by_cases hd : d.entries = dict.entries
      · simp only [order, if_pos hd, hd]
        exact hl
      · simp only [order, if_neg hd]
        exact .refl _
    have hsnap := (ho order hvisits).1
    simpa only [elementsSnapshot, if_pos harray, hdict, ElementsStorage.iter, order, if_pos]
      using hsnap
  have hlen : o.elementLen = dict.length := by
    rw [elementLen, if_pos harray, hdict]
    rfl
  have hget (i : Nat) : o.getElement i = dict.get i := by
    rw [getElement, if_pos harray, hdict]
    rfl
  have hcount : dict.entries.length = dict.length := by
    have hmap := congrArg List.length (hlist dict.entries (.refl _))
    rw [List.length_map] at hmap
    rw [hmap, positions, List.length_map, List.length_range, hlen]
  cases hentries : dict.entries with
  | nil =>
    rw [hentries] at hcount
    exact ⟨by rw [hentries]; exact hcount, .undefined, by simp,
      fun i hi => absurd hi (by rw [← hcount]; exact Nat.not_lt_zero i)⟩
  | cons e₀ rest =>
    have hmem : e₀ ∈ dict.entries := by simp [hentries]
    have hvalues : o.positions = List.replicate dict.length e₀.2 := by
      rw [← hlist dict.entries (.refl _), List.eq_replicate_iff]
      refine ⟨by rw [List.length_map, hcount], ?_⟩
      intro w hw
      obtain ⟨e, he, rfl⟩ := List.mem_map.mp hw
      exact ElementsDictionary.value_eq_of_perm hlist he hmem
    have hnot : e₀.2 ≠ .hole := by
      intro hhole
      -- an index the vector of a rebuild would cover holds a hole, and a hole is not read back
      obtain ⟨k, hk, hcover⟩ : ∃ k ∈ dict.keys,
          k < ELEMENTS_TO_DICTIONARY_INDEX ∨ dict.length ≤ ELEMENTS_TO_DICTIONARY_INDEX := by
        by_cases hshort : dict.length ≤ ELEMENTS_TO_DICTIONARY_INDEX
        · exact ⟨e₀.1, List.mem_map_of_mem hmem, .inr hshort⟩
        · obtain ⟨k, hk, hlt⟩ := h.exists_key_lt hcount
            (show 1 < ELEMENTS_TO_DICTIONARY_INDEX by decide) (Nat.lt_of_not_le hshort)
          exact ⟨k, hk, .inl hlt⟩
      obtain ⟨⟨k', w⟩, hentry, rfl⟩ := List.mem_map.mp hk
      have hread : dict.get k' = some .hole := by
        rw [h.get_of_mem hentry, ← hhole]
        exact congrArg some (ElementsDictionary.value_eq_of_perm hlist hentry hmem)
      have hsmall : k' < 2 ^ 32 := Nat.lt_of_le_of_lt (h.le k' hk) h.small
      obtain ⟨hsnap, hback⟩ := ho (fun d => d.entries) (fun d => .refl _)
      have hback := hback (UInt32.ofNat k')
      rw [UInt32.toNat_ofNat_of_lt' hsmall, hsnap, hvalues, hhole, hget, hread, getElement,
        replaceElements, if_pos harray] at hback
      rw [if_pos harray, (ElementsStorage.getBoxed_rebuild_holes h.small hcover).1] at hback
      cases hback
    refine ⟨hcount, e₀.2, hnot, ?_⟩
    intro i hi
    have hpos : o.positions[i]? = some e₀.2 := by
      rw [hvalues, List.getElem?_replicate, if_pos hi]
    rw [positions, List.getElem?_map, List.getElem?_range (hlen ▸ hi), Option.map_some,
      Option.some.injEq, hget] at hpos
    cases hi' : dict.get i with
    | none =>
      rw [hi'] at hpos
      exact absurd hpos.symm hnot
    | some w =>
      rw [hi'] at hpos
      exact congrArg some hpos

theorem roundTrips_of_uniform {dict : ElementsDictionary} (harray : o.kind = .array)
    (hdict : o.elementsArray = .dictionary dict) (h : dict.Entered) (hu : dict.Uniform) :
    o.RoundTrips := by
  obtain ⟨v, hv, hiter, hget⟩ := hu.iterated h
  intro order hvisits
  have hsnap : o.elementsSnapshot order = List.replicate dict.length v := by
    rw [elementsSnapshot, if_pos harray, hdict]
    exact hiter _ (hvisits dict)
  have hboxed : ∀ u ∈ List.replicate dict.length v, u.IsBoxed := by
    intro u hu
    rw [← hiter _ (.refl _)] at hu
    obtain ⟨e, he, rfl⟩ := List.mem_map.mp hu
    exact h.boxed e he
  refine ⟨?_, fun i => ?_⟩
  · rw [hsnap, positions, elementLen, if_pos harray, hdict]
    symm
    rw [List.eq_replicate_iff]
    refine ⟨by simp [ElementsStorage.len], ?_⟩
    intro w hw
    obtain ⟨i, hi, rfl⟩ := List.mem_map.mp hw
    have hi' : i < dict.length := List.mem_range.mp hi
    rw [getElement, if_pos harray, hdict, ElementsStorage.getBoxed, hget,
      List.getElem?_replicate, if_pos hi']
    rfl
  · have hlen : (List.replicate dict.length v).length < 2 ^ 32 := by
      rw [List.length_replicate]
      exact h.small
    have hholes : ∀ u ∈ List.replicate dict.length v, u ≠ .hole := by
      intro u hu
      rw [List.eq_of_mem_replicate hu]
      exact hv
    have hr := ElementsStorage.rebuiltReads hlen hboxed hholes
      (ElementsStorage.mixes_replicate _ _)
    rw [hsnap, getElement, replaceElements, if_pos harray, if_pos harray, hr.reads, getElement,
      if_pos harray, hdict, ElementsStorage.getBoxed, hget]

theorem roundTrips_of_isFlat (harray : o.kind = .array) (hf : o.elementsArray.IsFlat)
    (hrung : o.elementsArray.OnRung) :
    o.RoundTrips ↔ mixes o.elementsArray.slots = false := by
  have hsnap (order : IterationOrder) : o.elementsSnapshot order = o.elementsArray.slots := by
    rw [elementsSnapshot, if_pos harray, ElementsStorage.iter_of_isFlat hf]
  have hpositions : o.positions = o.elementsArray.slots := by
    have hget (i : Nat) : o.getElement i = present o.elementsArray.slots[i]? := by
      rw [getElement, if_pos harray, ElementsStorage.getBoxed_eq_of_isFlat hf hrung.admitted]
    simp only [positions, hget, elementLen, if_pos harray,
      ElementsStorage.len_eq_of_isFlat hf]
    exact map_range_present _
  have hback (order : IterationOrder) (i : Nat) :
      (o.replaceElements (o.elementsSnapshot order)).getElement i =
        present (refold o.elementsArray.slots)[i]? := by
    have hr := ElementsStorage.rebuilt hrung.bounded
      fun u hu => (hrung.admitted u hu).isBoxed
    rw [hsnap, getElement, replaceElements, if_pos harray, if_pos harray,
      ElementsStorage.getBoxed_eq_of_isFlat hr.flat hr.admitted, hr.slots]
  constructor
  · intro ho
    by_contra hmix
    rw [Bool.not_eq_false] at hmix
    obtain ⟨i, hi, hne⟩ := ElementsStorage.exists_refold_ne hmix
    have hsmall : i < 2 ^ 32 := by
      have := hrung.bounded
      unfold ELEMENTS_TO_DICTIONARY_INDEX at this
      omega
    have hread := (ho (fun d => d.entries) fun d => .refl _).2 (UInt32.ofNat i)
    rw [UInt32.toNat_ofNat_of_lt' hsmall, hback, getElement, if_pos harray,
      ElementsStorage.getBoxed_eq_of_isFlat hf hrung.admitted] at hread
    exact hne hread
  · intro hmix order hvisits
    refine ⟨by rw [hsnap, hpositions], fun i => ?_⟩
    rw [hback, ElementsStorage.refold_eq_self hmix, getElement, if_pos harray,
      ElementsStorage.getBoxed_eq_of_isFlat hf hrung.admitted]

theorem roundTrips_of_not_array (harray : o.kind ≠ .array) : o.RoundTrips := by
  intro order hvisits
  rw [elementsSnapshot, if_neg harray]
  refine ⟨?_, fun i => ?_⟩
  · simp only [positions, getElement, elementLen, if_neg harray]
    exact (map_range_present _).symm
  · rw [getElement, replaceElements, if_neg harray, if_neg harray, getElement, if_neg harray]

theorem roundTrips_iff_of_built (h : o.elementsArray.Built) :
    o.RoundTrips ↔ o.Positional := by
  by_cases harray : o.kind = .array
  · have hpos : o.Positional ↔ o.elementsArray.Positional :=
      ⟨fun hp => hp harray, fun hp _ => hp⟩
    rw [hpos]
    by_cases hf : o.elementsArray.IsFlat
    · rw [ElementsStorage.positional_of_isFlat hf]
      exact roundTrips_of_isFlat harray hf h.onRung
    · cases hdict : o.elementsArray with
      | dictionary dict =>
        rw [hdict] at h
        exact ⟨uniform_of_roundTrips harray hdict h, roundTrips_of_uniform harray hdict h⟩
      | _ => exact absurd (by simp [hdict, ElementsStorage.IsFlat, ElementsStorage.kind]) hf
  · exact ⟨fun _ hk => absurd hk harray, fun _ => roundTrips_of_not_array harray⟩

theorem built_write (h : o.elementsArray.Built) (w : ElementWrite) :
    (o.write w).elementsArray.Built := by
  cases w with
  | set idx value =>
    simp only [write, setElement]
    split
    · exact h.set idx.toNat_lt value.2
    · split
      · exact h
      · split <;> exact h
  | delete idx =>
    simp only [write, deleteElement]
    split
    · exact h.set idx.toNat_lt trivial
    · exact h

/-- **Snapshot and rebuild** of an object whose elements any sequence of writes and deletions
built: positional, and without effect on a read, exactly when the store is positional. -/
theorem roundTrips_iff (kind : Kind) (writes : List ElementWrite) :
    (Lib.run write (fresh kind) writes).RoundTrips ↔
      (Lib.run write (fresh kind) writes).Positional := by
  have hfresh : (fresh kind).elementsArray.Built :=
    ⟨(fun u hu => by cases hu), Nat.zero_le _⟩
  have hsteps : Lib.StepsMeet write (fun _ _ => True) (fresh kind) writes :=
    Lib.stepsMeet_of_forall (fun _ _ => trivial) writes _
  exact roundTrips_iff_of_built
    (Lib.run_invariant (I := fun o => o.elementsArray.Built) (fun o w h _ => built_write h w)
      hfresh hsteps)

/-- One far element: the snapshot has it at position 0. -/
theorem not_roundTrips :
    ¬ (Lib.run write (fresh .array) [.set 2000 ⟨.null, trivial⟩]).RoundTrips := by
  intro h
  have hsnap := congrArg List.length (h (fun d => d.entries) fun d => .refl _).1
  rw [positions, List.length_map, List.length_range] at hsnap
  revert hsnap
  decide

end JsObject

end V12.Heap
