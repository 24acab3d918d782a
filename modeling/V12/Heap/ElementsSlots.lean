/-
V12.Heap.ElementsSlots — the slots of an element store.

Off the dictionary rung a store is its list of slots, whatever the rung: a
conversion keeps the slots up to the widening of a small integer to the
double of the same number. A dictionary is its entries, under a length one
past the highest index.
-/
import V12.Heap.Elements
import V12.Lib.Assoc
import Mathlib.Data.List.Induction

namespace V12.Heap

open JsValue

variable {n : Int} {k : ElementsKind}

/-! ## §1 Numbers -/

namespace JsValue

def InSmi (n : Int) : Prop := SMI_MIN ≤ n ∧ n ≤ SMI_MAX

instance (n : Int) : Decidable (InSmi n) := inferInstanceAs (Decidable (_ ∧ _))

def IsRaw (bits : BitVec 64) : Prop := bits &&& BOX_MASK ≠ BOX_MASK

instance (bits : BitVec 64) : Decidable (IsRaw bits) := inferInstanceAs (Decidable (_ ≠ _))

/-- What a NaN-boxed word can hold: a small integer in range, a raw double. -/
def IsBoxed : JsValue → Prop
  | .smi n => InSmi n
  | .double bits => IsRaw bits
  | _ => True

instance (v : JsValue) : Decidable v.IsBoxed := by
  cases v <;> simp only [IsBoxed] <;> infer_instance

/-- The stored value is the written one, or the double of a small integer
written. -/
inductive SameNumber : JsValue → JsValue → Prop where
  | same (v : JsValue) : SameNumber v v
  | widened (n : Int) : SameNumber (.double (f64OfInt n)) (.smi n)

theorem SameNumber.trans {a b c : JsValue} (hab : SameNumber a b) (hbc : SameNumber b c) :
    SameNumber a c := by
  cases hab with
  | same => exact hbc
  | widened n =>
    cases hbc with
    | same => exact .widened n

theorem SameNumber.isHole_eq {a b : JsValue} (h : SameNumber a b) : a.isHole = b.isHole := by
  cases h with
  | same => rfl
  | widened n => rfl

end JsValue

theorem toNat_f64OfInt_lt (h : n.natAbs < 2 ^ 52) :
    (f64OfInt n).toNat < BOX_MASK.toNat := by
  have hmask : BOX_MASK.toNat = 2 ^ 63 + 4095 * 2 ^ 51 := by decide
  rw [hmask]
  unfold f64OfInt
  split
  · decide
  · rename_i hn
    simp only [BitVec.toNat_ofNat]
    apply Nat.lt_of_le_of_lt (Nat.mod_le _ _)
    have hpos : n.natAbs ≠ 0 := by omega
    have he : Nat.log2 n.natAbs < 52 := (Nat.log2_lt hpos).mpr h
    have hm : n.natAbs < 2 ^ (Nat.log2 n.natAbs + 1) := Nat.lt_log2_self
    generalize Nat.log2 n.natAbs = e at he hm
    have hfrac : (n.natAbs - 2 ^ e) * 2 ^ (52 - e) ≤ 2 ^ e * 2 ^ (52 - e) := by
      apply Nat.mul_le_mul_right
      rw [Nat.pow_succ] at hm
      omega
    rw [← Nat.pow_add, Nat.add_sub_cancel' (by omega)] at hfrac
    split <;> omega

theorem JsValue.isRaw_of_lt {bits : BitVec 64} (h : bits.toNat < BOX_MASK.toNat) : IsRaw bits := by
  intro heq
  have hle : (bits &&& BOX_MASK).toNat ≤ bits.toNat := by
    rw [BitVec.toNat_and]
    exact Nat.and_le_left
  rw [heq] at hle
  omega

theorem isRaw_f64OfInt (h : InSmi n) : IsRaw (f64OfInt n) := by
  apply isRaw_of_lt
  apply toNat_f64OfInt_lt
  obtain ⟨hmin, hmax⟩ := h
  simp only [SMI_MIN, SMI_MAX] at hmin hmax
  omega

theorem isRaw_quietNaN : IsRaw QUIET_NAN_BITS := by decide

@[simp] theorem fromF64_of_isRaw {bits : BitVec 64} (h : IsRaw bits) :
    fromF64 bits = .double bits := if_neg h

@[simp] theorem smiValue_of_inSmi (h : InSmi n) : smiValue n = .smi n := by
  have hsome : fromI32Smi n = some (.smi n) := if_pos h
  rw [smiValue, hsome, Option.getD_some]

theorem exists_fromF64 (bits : BitVec 64) : ∃ d, IsRaw d ∧ fromF64 bits = .double d := by
  by_cases h : IsRaw bits
  · exact ⟨bits, h, fromF64_of_isRaw h⟩
  · exact ⟨QUIET_NAN_BITS, isRaw_quietNaN, if_pos (not_not.mp h)⟩

theorem inSmi_of_smiValue {m : Int} (h : smiValue n = .smi m) : InSmi n := by
  by_contra hn
  have hnone : fromI32Smi n = none := if_neg hn
  obtain ⟨d, -, hd⟩ := exists_fromF64 (f64OfInt n)
  rw [smiValue, hnone, Option.getD_none, hd] at h
  cases h

/-! ## §2 Slots of a flat store -/

def ElementsKind.Admits : ElementsKind → JsValue → Prop
  | .packedSmi, u => ∃ n, InSmi n ∧ u = .smi n
  | .holeySmi, u => u = .hole ∨ ∃ n, InSmi n ∧ u = .smi n
  | .packedDouble, u => ∃ d, IsRaw d ∧ u = .double d
  | .holeyDouble, u => u = .hole ∨ ∃ d, IsRaw d ∧ u = .double d
  | .packedObject, u => u.IsBoxed ∧ u ≠ .hole
  | .holeyObject, u => u.IsBoxed
  | .dictionary, u => u.IsBoxed ∧ u ≠ .hole

theorem ElementsKind.admits_hole (h : k.isHoley) : k.Admits .hole := by
  cases k with
  | holeySmi => exact .inl rfl
  | holeyDouble => exact .inl rfl
  | holeyObject => exact trivial
  | _ => cases h

theorem ElementsKind.Admits.ne_hole {u : JsValue} (hu : k.Admits u) (h : k.isHoley = false) :
    u ≠ .hole := by
  cases k with
  | packedSmi => obtain ⟨n, -, rfl⟩ := hu; simp
  | packedDouble => obtain ⟨d, -, rfl⟩ := hu; simp
  | packedObject => exact hu.2
  | dictionary => exact hu.2
  | holeySmi => cases h
  | holeyDouble => cases h
  | holeyObject => cases h

theorem ElementsKind.Admits.isBoxed {u : JsValue} (hu : k.Admits u) :
    u.IsBoxed := by
  cases k with
  | packedSmi => obtain ⟨n, hn, rfl⟩ := hu; exact hn
  | packedDouble => obtain ⟨d, hd, rfl⟩ := hu; exact hd
  | holeySmi =>
    rcases hu with rfl | ⟨n, hn, rfl⟩
    · exact trivial
    · exact hn
  | holeyDouble =>
    rcases hu with rfl | ⟨d, hd, rfl⟩
    · exact trivial
    · exact hd
  | packedObject => exact hu.1
  | holeyObject => exact hu
  | dictionary => exact hu.1

/-- What reading a slot answers: a hole is absent. -/
def present (u : Option JsValue) : Option JsValue := u.filter fun v => !v.isHole

@[simp] theorem present_none : present none = none := rfl

@[simp] theorem present_hole : present (some .hole) = none := rfl

theorem present_some (v : JsValue) : present (some v) = if v.isHole then none else some v := by
  cases v <;> rfl

theorem present_of_ne_hole {u : Option JsValue} (h : u ≠ some .hole) : present u = u := by
  cases u with
  | none => rfl
  | some v =>
    cases v with
    | hole => exact absurd rfl h
    | _ => rfl

namespace ElementsStorage

variable {e : ElementsStorage} {k : ElementsKind}

def slots : ElementsStorage → List JsValue
  | .packedSmi v => v.map smiValue
  | .packedDouble v => v.map fromF64
  | .holeySmi v | .holeyDouble v | .packedObject v | .holeyObject v => v
  | .dictionary _ => []

def IsFlat (e : ElementsStorage) : Prop := e.kind ≠ .dictionary

instance (e : ElementsStorage) : Decidable e.IsFlat := inferInstanceAs (Decidable (_ ≠ _))

def SlotsAdmitted (e : ElementsStorage) : Prop := ∀ u ∈ e.slots, e.kind.Admits u

@[simp] theorem fastLen_eq (e : ElementsStorage) : e.fastLen = e.slots.length := by
  cases e <;> simp [fastLen, slots]

theorem len_eq_of_isFlat (h : e.IsFlat) : e.len = e.slots.length := by
  cases e with
  | dictionary dict => exact absurd rfl h
  | _ => simp [len, slots]

theorem getBoxed_eq_of_isFlat (h : e.IsFlat) (ha : e.SlotsAdmitted) (i : Nat) :
    e.getBoxed i = present e.slots[i]? := by
  have packed : e.kind.isHoley = false → present e.slots[i]? = e.slots[i]? := by
    intro hk
    apply present_of_ne_hole
    intro heq
    exact (ha .hole (List.mem_of_getElem? heq)).ne_hole hk rfl
  cases e with
  | dictionary dict => exact absurd rfl h
  | packedSmi v => rw [packed rfl]; simp [getBoxed, slots]
  | packedDouble v => rw [packed rfl]; simp [getBoxed, slots]
  | packedObject v => rw [packed rfl]; simp [getBoxed, slots]
  | holeySmi v => rfl
  | holeyDouble v => rfl
  | holeyObject v => rfl

/-! ## §3 Conversions between flat rungs -/

/-- The conversions between flat rungs that `convert_storage` has: upward, never from a
holey rung to a packed one. -/
def Widens (k target : ElementsKind) : Prop :=
  k.rank ≤ target.rank ∧ (k.isHoley → target.isHoley) ∧ target ≠ .dictionary

/-- How a rung encodes a value: the double rungs widen small integers. -/
def recode : ElementsKind → JsValue → JsValue
  | .packedDouble, .smi n | .holeyDouble, .smi n => .double (f64OfInt n)
  | _, u => u

theorem sameNumber_recode (k : ElementsKind) (u : JsValue) : SameNumber (recode k u) u := by
  unfold recode
  split
  · exact .widened _
  · exact .widened _
  · exact .same _

@[simp] theorem recode_hole (k : ElementsKind) : recode k .hole = .hole := by
  cases k <;> rfl

theorem recode_eq (hp : k ≠ .packedDouble) (hh : k ≠ .holeyDouble) (u : JsValue) :
    recode k u = u := by
  cases k with
  | packedDouble => exact absurd rfl hp
  | holeyDouble => exact absurd rfl hh
  | _ => rfl

theorem map_recode_eq (hp : k ≠ .packedDouble) (hh : k ≠ .holeyDouble) (l : List JsValue) :
    l.map (recode k) = l := by
  have hid : recode k = id := funext (recode_eq hp hh)
  rw [hid, List.map_id]

theorem admits_recode_smi {n : Int} (hn : InSmi n) :
    k.Admits (recode k (.smi n)) := by
  cases k with
  | packedSmi => exact ⟨n, hn, rfl⟩
  | holeySmi => exact .inr ⟨n, hn, rfl⟩
  | packedDouble => exact ⟨f64OfInt n, isRaw_f64OfInt hn, rfl⟩
  | holeyDouble => exact .inr ⟨f64OfInt n, isRaw_f64OfInt hn, rfl⟩
  | packedObject => exact ⟨hn, by simp [recode]⟩
  | holeyObject => exact hn
  | dictionary => exact ⟨hn, by simp [recode]⟩

theorem admits_recode_double {d : BitVec 64} (hd : IsRaw d)
    (hk : ElementsKind.packedDouble.rank ≤ k.rank) : k.Admits (recode k (.double d)) := by
  cases k with
  | packedSmi => simp [ElementsKind.rank] at hk
  | holeySmi => simp [ElementsKind.rank] at hk
  | packedDouble => exact ⟨d, hd, rfl⟩
  | holeyDouble => exact .inr ⟨d, hd, rfl⟩
  | packedObject => exact ⟨hd, by simp [recode]⟩
  | holeyObject => exact hd
  | dictionary => exact ⟨hd, by simp [recode]⟩

theorem admits_recode_other (hv : v.IsBoxed) (hne : v ≠ .hole)
    (hk : ElementsKind.packedObject.rank ≤ k.rank) : k.Admits (recode k v) := by
  cases k with
  | packedObject => exact ⟨hv, hne⟩
  | holeyObject => exact hv
  | dictionary => exact ⟨hv, hne⟩
  | _ => simp [ElementsKind.rank] at hk

theorem admits_recode {target : ElementsKind} {u : JsValue} (hw : Widens k target)
    (hu : k.Admits u) : target.Admits (recode target u) := by
  obtain ⟨hrank, hholey, hflat⟩ := hw
  cases k with
  | packedSmi =>
    obtain ⟨n, hn, rfl⟩ := hu
    exact admits_recode_smi hn
  | holeySmi =>
    rcases hu with rfl | ⟨n, hn, rfl⟩
    · rw [recode_hole]
      exact ElementsKind.admits_hole (hholey rfl)
    · exact admits_recode_smi hn
  | packedDouble =>
    obtain ⟨d, hd, rfl⟩ := hu
    exact admits_recode_double hd hrank
  | holeyDouble =>
    rcases hu with rfl | ⟨d, hd, rfl⟩
    · rw [recode_hole]
      exact ElementsKind.admits_hole (hholey rfl)
    · exact admits_recode_double hd (Nat.le_trans (by decide) hrank)
  | packedObject => exact admits_recode_other hu.1 hu.2 hrank
  | holeyObject =>
    by_cases hhole : u = .hole
    · rw [hhole, recode_hole]
      exact ElementsKind.admits_hole (hholey rfl)
    · exact admits_recode_other hu hhole (Nat.le_trans (by decide) hrank)
  | dictionary =>
    cases target with
    | dictionary => exact absurd rfl hflat
    | _ => simp [ElementsKind.rank] at hrank

theorem recode_of_admits {u : JsValue} (hu : k.Admits u) : recode k u = u := by
  cases k with
  | packedDouble => obtain ⟨d, -, rfl⟩ := hu; rfl
  | holeyDouble => rcases hu with rfl | ⟨d, -, rfl⟩ <;> rfl
  | _ => rfl

theorem convertStorage_flat {target : ElementsKind} (ha : e.SlotsAdmitted) (hf : e.IsFlat)
    (hw : Widens e.kind target) :
    (e.convertStorage target).kind = target ∧
      (e.convertStorage target).slots = e.slots.map (recode target) := by
  by_cases hk : e.kind = target
  · have hsame : e.convertStorage target = e := if_pos hk
    rw [hsame]
    refine ⟨hk, ?_⟩
    conv_lhs => rw [← List.map_id e.slots]
    apply List.map_congr_left
    intro u hu
    exact (recode_of_admits (hk ▸ ha u hu)).symm
  · obtain ⟨hrank, hholey, hflat⟩ := hw
    unfold convertStorage
    rw [if_neg hk]
    cases e with
    | packedSmi v =>
      have hslot : ∀ n ∈ v, InSmi n := by
        intro n hn
        obtain ⟨m, -, heq⟩ := ha (smiValue n) (List.mem_map_of_mem hn)
        exact inSmi_of_smiValue heq
      cases target with
      | packedSmi => exact absurd rfl hk
      | dictionary => exact absurd rfl hflat
      | packedDouble =>
        refine ⟨rfl, ?_⟩
        simp only [slots, List.map_map]
        apply List.map_congr_left
        intro n hn
        simp [recode, smiValue_of_inSmi (hslot n hn), isRaw_f64OfInt (hslot n hn)]
      | holeyDouble =>
        refine ⟨rfl, ?_⟩
        simp only [slots, List.map_map]
        apply List.map_congr_left
        intro n hn
        simp [recode, smiValue_of_inSmi (hslot n hn), isRaw_f64OfInt (hslot n hn)]
      | _ => exact ⟨rfl, (map_recode_eq (by decide) (by decide) _).symm⟩
    | holeySmi v =>
      cases target with
      | holeySmi => exact absurd rfl hk
      | dictionary => exact absurd rfl hflat
      | holeyDouble =>
        refine ⟨rfl, ?_⟩
        apply List.map_congr_left
        intro u hu
        rcases ha u hu with rfl | ⟨n, hn, rfl⟩
        · rfl
        · simp [recode, isHole, asDouble, asF64, asSmi, isRaw_f64OfInt hn]
      | holeyObject => exact ⟨rfl, (map_recode_eq (by decide) (by decide) _).symm⟩
      | _ => simp [ElementsKind.isHoley, kind] at hholey
    | packedDouble v =>
      cases target with
      | packedDouble => exact absurd rfl hk
      | dictionary => exact absurd rfl hflat
      | holeyDouble =>
        refine ⟨rfl, ?_⟩
        simp only [slots, List.map_map]
        apply List.map_congr_left
        intro d hd
        obtain ⟨d', -, heq⟩ := exists_fromF64 d
        simp [heq, recode]
      | packedObject => exact ⟨rfl, (map_recode_eq (by decide) (by decide) _).symm⟩
      | holeyObject => exact ⟨rfl, (map_recode_eq (by decide) (by decide) _).symm⟩
      | _ => simp [ElementsKind.rank, kind] at hrank
    | holeyDouble v =>
      cases target with
      | holeyDouble => exact absurd rfl hk
      | dictionary => exact absurd rfl hflat
      | holeyObject => exact ⟨rfl, (map_recode_eq (by decide) (by decide) _).symm⟩
      | packedObject => simp [ElementsKind.isHoley, kind] at hholey
      | _ => simp [ElementsKind.rank, kind] at hrank
    | packedObject v =>
      cases target with
      | packedObject => exact absurd rfl hk
      | dictionary => exact absurd rfl hflat
      | holeyObject => exact ⟨rfl, (map_recode_eq (by decide) (by decide) _).symm⟩
      | _ => simp [ElementsKind.rank, kind] at hrank
    | holeyObject v =>
      cases target with
      | holeyObject => exact absurd rfl hk
      | dictionary => exact absurd rfl hflat
      | _ => simp [ElementsKind.rank, kind] at hrank
    | dictionary dict => exact absurd rfl hf

/-! ## §4 Conversion to the dictionary -/

def dictionaryOf (l : List JsValue) : ElementsDictionary :=
  (presentPairs l).foldl (fun dict p => dict.insert p.1 p.2) .new

theorem pairs_eq_presentPairs {l : List JsValue} (h : ∀ u ∈ l, u ≠ .hole) :
    pairs l = presentPairs l := by
  unfold pairs presentPairs
  rw [List.filter_eq_self.mpr]
  intro p hp
  have hu : p.1 ∈ l := by
    obtain ⟨u, i⟩ := p
    exact List.fst_mem_of_mem_zipIdx hp
  have hne := h p.1 hu
  cases hv : p.1 with
  | hole => exact absurd hv hne
  | _ => rfl

theorem convertStorage_dictionary (ha : e.SlotsAdmitted) (hf : e.IsFlat) :
    e.convertStorage .dictionary = .dictionary (dictionaryOf e.slots) := by
  have packed : e.kind.isHoley = false → pairs e.slots = presentPairs e.slots := by
    intro hk
    apply pairs_eq_presentPairs
    intro u hu
    exact (ha u hu).ne_hole hk
  unfold convertStorage
  rw [if_neg hf]
  cases e with
  | dictionary dict => exact absurd rfl hf
  | packedSmi v => exact congrArg dictionaryFromPairs (packed rfl)
  | packedDouble v => exact congrArg dictionaryFromPairs (packed rfl)
  | packedObject v => exact congrArg dictionaryFromPairs (packed rfl)
  | holeySmi v => rfl
  | holeyDouble v => rfl
  | holeyObject v => rfl

theorem presentPairs_concat (l : List JsValue) (u : JsValue) :
    presentPairs (l ++ [u]) =
      presentPairs l ++ if u.isHole then [] else [(l.length, u)] := by
  unfold presentPairs
  rw [List.zipIdx_append, List.filter_append, List.map_append]
  cases hu : u.isHole with
  | true => simp [hu]
  | false => simp [hu]

theorem dictionaryOf_concat (l : List JsValue) (u : JsValue) :
    dictionaryOf (l ++ [u]) =
      if u.isHole then dictionaryOf l else (dictionaryOf l).insert l.length u := by
  rw [dictionaryOf, presentPairs_concat, List.foldl_append]
  split <;> rfl

end ElementsStorage

/-! ## §5 The dictionary -/

namespace ElementsDictionary

variable {dict : ElementsDictionary} {index : Nat}

theorem get_insert (dict : ElementsDictionary) (index i : Nat) (v : JsValue) :
    (dict.insert index v).get i = if i = index then some v else dict.get i := by
  simp only [get, insert, List.lookup_cons, Lib.lookup_filter_ne]
  by_cases hi : i = index
  · simp [hi]
  · have hne : (i == index) = false := by simp [hi]
    simp [hne, hi]

theorem length_insert (h : index + 1 < 2 ^ 32) (v : JsValue) :
    (dict.insert index v).length = max dict.length (index + 1) := by
  simp only [insert, saturatingSucc]
  omega

theorem get_ne_none :
    dict.get index ≠ none ↔ index ∈ dict.keys := by
  unfold get keys
  induction dict.entries with
  | nil => simp
  | cons e es ih =>
    obtain ⟨k, v⟩ := e
    by_cases hk : index = k
    · simp [hk]
    · have hne : (index == k) = false := by simp [hk]
      rw [List.lookup_cons, hne, List.map_cons, List.mem_cons]
      simp only [hk, false_or]
      exact ih

/-- The dictionary of an element store: boxed values and no holes, under a
length one past the highest index. -/
structure WellFormed (dict : ElementsDictionary) : Prop where
  value : ∀ i v, dict.get i = some v → v.IsBoxed ∧ v ≠ .hole
  below : ∀ i, dict.get i ≠ none → i < dict.length
  top : dict.length ≠ 0 → dict.get (dict.length - 1) ≠ none
  small : dict.length < 2 ^ 32

theorem wellFormed_new : new.WellFormed where
  value i v h := by cases h
  below i h := absurd rfl h
  top h := absurd rfl h
  small := by decide

theorem WellFormed.insert (h : dict.WellFormed) {v : JsValue} (hindex : index + 1 < 2 ^ 32)
    (hv : v.IsBoxed) (hhole : v ≠ .hole) :
    (dict.insert index v).WellFormed where
  value i u hu := by
    rw [get_insert] at hu
    split at hu
    · cases hu
      exact ⟨hv, hhole⟩
    · exact h.value i u hu
  below i hi := by
    rw [get_insert] at hi
    rw [length_insert hindex]
    split at hi
    · omega
    · have := h.below i hi
      omega
  top hlen := by
    rw [length_insert hindex] at hlen ⊢
    rw [get_insert]
    split
    · simp
    · rename_i hne
      have hmax : max dict.length (index + 1) = dict.length := by omega
      rw [hmax] at hlen ⊢
      exact h.top hlen
  small := by
    rw [length_insert hindex]
    have := h.small
    omega

theorem get_pop (h : dict.WellFormed) (i : Nat) :
    dict.pop.2.get i = if i = dict.length - 1 then none else dict.get i := by
  unfold pop
  split
  · rename_i hlen
    have hnone : dict.get i = none := by
      by_contra hne
      have := h.below i hne
      omega
    simp [hnone]
  · simp only [get, Lib.lookup_filter_ne]

theorem length_pop (h : dict.WellFormed) (hlen : dict.length ≠ 0) :
    (dict.pop.2.length = 0 ∧ dict.pop.2.keys = []) ∨
      ∃ k ∈ dict.pop.2.keys, dict.pop.2.length = k + 1 ∧ ∀ i ∈ dict.pop.2.keys, i ≤ k := by
  have hkeys : dict.pop.2.keys =
      (dict.entries.filter fun e => e.1 ≠ dict.length - 1).map Prod.fst := by
    simp [pop, hlen, keys]
  have hlength : dict.pop.2.length = dict.pop.2.keys.max?.elim 0 saturatingSucc := by
    rw [hkeys]
    simp [pop, hlen]
  rw [hlength]
  cases hmax : dict.pop.2.keys.max? with
  | none => exact .inl ⟨rfl, List.max?_eq_none_iff.mp hmax⟩
  | some k =>
    obtain ⟨hk, hle⟩ := List.max?_eq_some_iff.mp hmax
    refine .inr ⟨k, hk, ?_, hle⟩
    have hget := get_ne_none.mpr hk
    rw [get_pop h] at hget
    split at hget
    · exact absurd rfl hget
    · have hbelow := h.below k hget
      have hsmall := h.small
      simp only [Option.elim_some, saturatingSucc]
      omega

theorem WellFormed.pop (h : dict.WellFormed) :
    dict.pop.2.WellFormed := by
  by_cases hlen : dict.length = 0
  · have hsame : dict.pop.2 = dict := by simp [ElementsDictionary.pop, hlen]
    rw [hsame]
    exact h
  · have hsub : ∀ i, dict.pop.2.get i ≠ none → dict.get i ≠ none := by
      intro i hi
      rw [get_pop h] at hi
      split at hi
      · exact absurd rfl hi
      · exact hi
    have hvalue : ∀ i v, dict.pop.2.get i = some v → v.IsBoxed ∧ v ≠ .hole := by
      intro i v hv
      rw [get_pop h] at hv
      split at hv
      · cases hv
      · exact h.value i v hv
    rcases length_pop h hlen with ⟨hzero, hnil⟩ | ⟨k, hk, hlength, hle⟩
    · refine ⟨hvalue, ?_, fun hne => absurd hzero hne, by omega⟩
      intro i hi
      rw [get_ne_none, hnil] at hi
      cases hi
    · have hbelow := h.below k (hsub k (get_ne_none.mpr hk))
      have hsmall := h.small
      refine ⟨hvalue, ?_, ?_, by omega⟩
      · intro i hi
        have := hle i (get_ne_none.mp hi)
        omega
      · intro _
        rw [hlength, Nat.add_sub_cancel]
        exact get_ne_none.mpr hk

theorem length_pop_eq_iff (h : dict.WellFormed) :
    dict.pop.2.length = dict.length - 1 ↔
      dict.length ≤ 1 ∨ dict.get (dict.length - 2) ≠ none := by
  have hsub : dict.pop.2.length ≠ 0 →
      dict.pop.2.length ≤ dict.length - 1 ∧ dict.get (dict.pop.2.length - 1) ≠ none := by
    intro hne
    have htop := h.pop.top hne
    rw [get_pop h] at htop
    split at htop
    · exact absurd rfl htop
    · have hbelow := h.below _ htop
      exact ⟨by omega, htop⟩
  constructor
  · intro heq
    by_cases hlen : dict.length ≤ 1
    · exact .inl hlen
    · have htop := (hsub (by omega)).2
      rw [heq] at htop
      exact .inr htop
  · rintro (hlen | hget)
    · by_contra hne
      have := (hsub (by omega)).1
      omega
    · have hbelow := h.below _ hget
      by_cases hlen : dict.length = 1
      · by_contra hne
        have := (hsub (by omega)).1
        omega
      · have hleft : dict.pop.2.get (dict.length - 2) ≠ none := by
          rw [get_pop h, if_neg (by omega)]
          exact hget
        have hin := h.pop.below _ hleft
        have := (hsub (by omega)).1
        omega

end ElementsDictionary

namespace ElementsStorage

theorem dictionaryOf_spec {l : List JsValue} (hl : l.length < 2 ^ 32)
    (hboxed : ∀ u ∈ l, u.IsBoxed) :
    (dictionaryOf l).WellFormed ∧ (dictionaryOf l).length ≤ l.length ∧
      ∀ i, (dictionaryOf l).get i = present l[i]? := by
  induction l using List.reverseRecOn with
  | nil => exact ⟨ElementsDictionary.wellFormed_new, Nat.le_refl 0, fun i => rfl⟩
  | append_singleton l u ih =>
    rw [List.length_append, List.length_singleton] at hl
    obtain ⟨hwf, hlen, hget⟩ := ih (by omega) fun v hv => hboxed v (by simp [hv])
    rw [dictionaryOf_concat]
    have hlast : ∀ i, (l ++ [u])[i]? = if i = l.length then some u else l[i]? := by
      intro i
      rw [List.getElem?_append]
      split
      · rw [if_neg (by omega)]
      · by_cases hi : i = l.length
        · simp [hi]
        · rw [if_neg hi, List.getElem?_eq_none (by simp; omega), List.getElem?_eq_none (by omega)]
    cases hu : u.isHole with
    | true =>
      simp only [if_true]
      refine ⟨hwf, by simp; omega, ?_⟩
      intro i
      rw [hget, hlast]
      split
      · rename_i hi
        rw [hi, List.getElem?_eq_none (Nat.le_refl _)]
        simp [present_some, hu]
      · rfl
    | false =>
      have hne : u ≠ .hole := by
        intro heq
        rw [heq] at hu
        cases hu
      simp only [Bool.false_eq_true, if_false]
      refine ⟨hwf.insert hl (hboxed u (by simp)) hne, ?_, ?_⟩
      · rw [ElementsDictionary.length_insert hl]
        simp
        omega
      · intro i
        rw [ElementsDictionary.get_insert, hlast]
        split
        · simp [present_some, hu]
        · exact hget i

end ElementsStorage

end V12.Heap
