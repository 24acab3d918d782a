/-
V12.Engine.CollectionsTheorems — a collection answers as a map in the order of
insertion, while its keys are recognised.

The vector is the coding of a list of slots (§2), and every function of the
source is one operation on the slots (§3), so each call keeps what the state
stands for (§4). The condition is on the state before each call.
-/
import V12.Engine.Collections

namespace V12.Collections

open V12.Heap V12.Heap.JsValue V12.Interp Lib Lib.Binary64

variable {c : Contents} {kind : Kind} {n : Int} {store : List JsValue}

/-! ## §1 The condition -/

def liveKeys (kind : Kind) (store : List JsValue) : List JsValue :=
  ((List.range (store.length / stride kind)).map (keySlot (stride kind) store)).filter
    fun k => !k.isHole

/-- Two words that `same_value_zero` compares rightly, if they are one key. -/
def Comparable (a b : JsValue) : Prop := a = b ∨ a.asF64.isSome = true ∧ b.asF64.isSome = true

instance (a b : JsValue) : Decidable (Comparable a b) := inferInstanceAs (Decidable (_ ∨ _))

/-- A live key that is the given one is the same word, or both are doubles. -/
def Recognised (c : Contents) (kind : Kind) (store : List JsValue) (key : Key) : Prop :=
  ∀ k ∈ liveKeys kind store, SameValueZero c k key.1 = true → Comparable k key.1

instance (c : Contents) (kind : Kind) (store : List JsValue) (key : Key) :
    Decidable (Recognised c kind store key) :=
  inferInstanceAs (Decidable (∀ k ∈ liveKeys kind store, _ → _))

/-- A size that its cast to 32 bits leaves alone, or takes out of the small integers. -/
def SizeFits (n : Nat) : Prop :=
  (n : Int) ≤ SMI_MAX ∨ n < 2 ^ 52 ∧ fromI32Smi (Int.bmod n (2 ^ 32)) = none

instance (n : Nat) : Decidable (SizeFits n) := inferInstanceAs (Decidable (_ ∨ _))

/-- The slots from an index on are empty up to one that an index can be past. -/
def IndexFits (kind : Kind) (store : List JsValue) (index : Nat) : Prop :=
  ∀ j < sourceLen kind store, index ≤ j → (entryAt kind store j).1.isHole = false →
    (∀ i < j, index ≤ i → (entryAt kind store i).1.isHole = true) → (j : Int) < SMI_MAX

instance (kind : Kind) (store : List JsValue) (index : Nat) :
    Decidable (IndexFits kind store index) :=
  inferInstanceAs (Decidable (∀ j < sourceLen kind store, _))

def Meets (c : Contents) (kind : Kind) (s : State) : Op → Prop
  | .put key _ | .get key | .has key | .delete key => Recognised c kind s.elements key
  | .size => SizeFits (liveKeys kind s.elements).length
  | .next i =>
    match s.cursors[i]? with
    | some (.iterator _ index) => IndexFits kind s.elements (indexOf index)
    | _ => True
  | .clear | .iterate _ | .forEach => True

instance (c : Contents) (kind : Kind) (s : State) : ∀ op, Decidable (Meets c kind s op)
  | .put key _ | .get key | .has key | .delete key =>
    inferInstanceAs (Decidable (Recognised c kind s.elements key))
  | .size => inferInstanceAs (Decidable (SizeFits _))
  | .next i =>
    match h : s.cursors[i]? with
    | some (.iterator _ index) =>
      decidable_of_iff (IndexFits kind s.elements (indexOf index)) (by simp only [Meets, h])
    | some (.forEach _) => isTrue (by simp only [Meets, h])
    | none => isTrue (by simp only [Meets, h])
  | .clear | .iterate _ | .forEach => isTrue trivial

/-! ## §2 The coding of slots -/

def encodeSlot (kind : Kind) : Slot Key JsValue → List JsValue
  | none => List.replicate (stride kind) .hole
  | some (k, v) =>
    match kind with
    | .map => [k.1, v]
    | .set => [k.1]

def encode (kind : Kind) (slots : List (Slot Key JsValue)) : List JsValue :=
  slots.flatMap (encodeSlot kind)

def slotKey : Slot Key JsValue → JsValue
  | none => .hole
  | some (k, _) => k.1

theorem stride_pos (kind : Kind) : 0 < stride kind := by
  cases kind <;> decide

theorem length_encodeSlot (kind : Kind) (slot : Slot Key JsValue) :
    (encodeSlot kind slot).length = stride kind := by
  cases slot with
  | none => exact List.length_replicate
  | some p => cases kind <;> rfl

section Encode

variable (kind : Kind) (slots : List (Slot Key JsValue))

theorem length_encode : (encode kind slots).length = slots.length * stride kind := by
  induction slots with
  | nil => simp [encode]
  | cons slot slots ih =>
    rw [encode, List.flatMap_cons, List.length_append, length_encodeSlot, ← encode, ih,
      List.length_cons, Nat.succ_mul, Nat.add_comm]

theorem drop_encode (i : Nat) :
    (encode kind slots).drop (i * stride kind) = encode kind (slots.drop i) := by
  induction slots generalizing i with
  | nil => simp [encode]
  | cons slot slots ih =>
    cases i with
    | zero => simp
    | succ i =>
      have hfirst : (encodeSlot kind slot).length = stride kind := length_encodeSlot kind slot
      rw [List.drop_succ_cons, ← ih i, encode, List.flatMap_cons, ← encode, Nat.succ_mul,
        Nat.add_comm, ← List.drop_drop, List.drop_left' hfirst]

theorem take_encode (i : Nat) :
    (encode kind slots).take (i * stride kind) = encode kind (slots.take i) := by
  induction slots generalizing i with
  | nil => simp [encode]
  | cons slot slots ih =>
    cases i with
    | zero => simp [encode]
    | succ i =>
      have hfirst : (encodeSlot kind slot).length = stride kind := length_encodeSlot kind slot
      rw [List.take_succ_cons, encode, List.flatMap_cons, encode, List.flatMap_cons, ← encode,
        ← encode, ← ih i, Nat.succ_mul, Nat.add_comm, ← hfirst, List.take_length_add_append, hfirst]

theorem encode_append (slots' : List (Slot Key JsValue)) :
    encode kind (slots ++ slots') = encode kind slots ++ encode kind slots' :=
  List.flatMap_append

theorem length_div_stride : (encode kind slots).length / stride kind = slots.length := by
  rw [length_encode, Nat.mul_div_cancel _ (stride_pos kind)]

variable {kind slots} {i : Nat} (hi : i < slots.length)

include hi

theorem drop_encode_cons : (encode kind slots).drop (i * stride kind) =
    encodeSlot kind slots[i] ++ encode kind (slots.drop (i + 1)) := by
  rw [drop_encode, List.drop_eq_getElem_cons hi, encode, List.flatMap_cons, ← encode]

theorem keySlot_encode : keySlot (stride kind) (encode kind slots) i = slotKey slots[i] := by
  unfold keySlot
  rw [List.getD_eq_getElem?_getD, ← List.head?_drop, drop_encode_cons hi]
  cases slots[i] with
  | none => cases kind <;> rfl
  | some p => cases kind <;> rfl

theorem entryAt_encode : entryAt kind (encode kind slots) i =
    match slots[i] with
    | none => (.hole, .hole)
    | some (k, v) => entryOf kind ⟨i, k, v⟩ := by
  have hdrop : (encode kind slots).drop (i * stride kind) =
      encodeSlot kind slots[i] ++ encode kind (slots.drop (i + 1)) := drop_encode_cons hi
  have hfront (j : Nat) : sourceElem (encode kind slots) (i * stride kind + j) =
      ((encodeSlot kind slots[i] ++ encode kind (slots.drop (i + 1)))[j]?).getD .undefined := by
    rw [← hdrop, List.getElem?_drop, sourceElem, List.getD_eq_getElem?_getD]
  cases kind with
  | map =>
    have h0 := hfront 0
    have h1 := hfront 1
    simp only [stride, Nat.mul_comm i, Nat.add_zero] at h0 h1
    simp only [entryAt, h0, h1]
    cases slots[i] <;> rfl
  | set =>
    have h0 := hfront 0
    simp only [stride, Nat.mul_one, Nat.add_zero] at h0
    simp only [entryAt, h0]
    cases slots[i] <;> rfl

end Encode

theorem sourceLen_encode (kind : Kind) (slots : List (Slot Key JsValue)) :
    sourceLen kind (encode kind slots) = slots.length := by
  have hlength := length_div_stride kind slots
  cases kind with
  | map => exact hlength
  | set =>
    rw [stride, Nat.div_one] at hlength
    exact hlength

theorem liveKeys_encode (kind : Kind) (n : Nat) (slots : List (Slot Key JsValue)) :
    liveKeys kind (encode kind slots) = (live n slots).map fun e => e.key.1 := by
  have hslots : (List.range slots.length).map (keySlot (stride kind) (encode kind slots)) =
      slots.map slotKey := by
    refine List.ext_getElem (by simp) fun i hi _ => ?_
    rw [List.length_map, List.length_range] at hi
    rw [List.getElem_map, List.getElem_map, List.getElem_range, keySlot_encode hi]
  unfold liveKeys
  rw [length_div_stride, hslots]
  clear hslots
  induction slots generalizing n with
  | nil => rfl
  | cons slot slots ih =>
    cases slot with
    | none => exact ih (n + 1)
    | some p =>
      obtain ⟨k, v⟩ := p
      have hkeep : (!(slotKey (some (k, v))).isHole) = true := by
        rw [slotKey, k.2]
        rfl
      rw [List.map_cons, List.filter_cons, if_pos hkeep, ih (n + 1)]
      rfl

/-! ## §3 The functions of the source, on slots -/

section Agreeing

/-- `same_value_zero` finds the key in the slots that a test does. -/
def Agrees (test : Key → Bool) (key : Key) (slots : List (Slot Key JsValue)) : Prop :=
  ∀ k v, some (k, v) ∈ slots → sameValueZero k.1 key.1 = test k

variable {test : Key → Bool} {key : Key} {slot : Slot Key JsValue}
  {slots : List (Slot Key JsValue)}

theorem Agrees.rest (h : Agrees test key (slot :: slots)) : Agrees test key slots :=
  fun k v hmem => h k v (.tail slot hmem)

theorem Agrees.first {k : Key} {v : JsValue} (h : Agrees test key (some (k, v) :: slots)) :
    holds key.1 k.1 = test k := by
  rw [← h k v (.head slots), holds, k.2]
  rfl

def slotTest (test : Key → Bool) : Slot Key JsValue → Bool
  | none => false
  | some (k, _) => test k

theorem Agrees.mem (h : Agrees test key slots) (hmem : slot ∈ slots) :
    holds key.1 (slotKey slot) = slotTest test slot := by
  cases slot with
  | none => rfl
  | some p =>
    obtain ⟨k, v⟩ := p
    rw [slotKey, slotTest, ← h k v hmem, holds, k.2]
    rfl

theorem any_slotTest (n : Nat) (slots : List (Slot Key JsValue)) :
    slots.any (slotTest test) = (live n slots).any fun e => test e.key := by
  induction slots generalizing n with
  | nil => rfl
  | cons slot slots ih =>
    cases slot with
    | none => exact ih (n + 1)
    | some p =>
      obtain ⟨k, v⟩ := p
      exact congrArg (test k || ·) (ih (n + 1))

theorem has_encode (kind : Kind) (h : Agrees test key slots) :
    has (stride kind) (encode kind slots) key.1 = (live 0 slots).any fun e => test e.key := by
  unfold has
  rw [length_div_stride, ← any_slotTest, Bool.eq_iff_iff, List.any_eq_true, List.any_eq_true]
  constructor
  · rintro ⟨i, hi, hholds⟩
    have hlt := List.mem_range.mp hi
    rw [keySlot_encode hlt, h.mem (List.getElem_mem hlt)] at hholds
    exact ⟨slots[i], List.getElem_mem hlt, hholds⟩
  · rintro ⟨slot, hmem, htest⟩
    obtain ⟨i, hlt, rfl⟩ := List.getElem_of_mem hmem
    refine ⟨i, List.mem_range.mpr hlt, ?_⟩
    rw [keySlot_encode hlt, h.mem hmem]
    exact htest

theorem emptySlot_of_none (h : ∀ slot ∈ slots, slotTest test slot = false) :
    emptySlot test slots = slots := by
  induction slots with
  | nil => rfl
  | cons slot slots ih =>
    have hrest := ih fun slot' hmem => h slot' (.tail slot hmem)
    have hfirst := h slot (.head slots)
    cases slot with
    | none => rw [emptySlot, hrest]
    | some p =>
      obtain ⟨k, v⟩ := p
      rw [emptySlot, hrest, if_neg (by simpa [slotTest] using hfirst)]

theorem emptySlot_of_first {i : Nat} (hi : i < slots.length)
    (htest : slotTest test slots[i] = true)
    (hbefore : ∀ j (hlt : j < slots.length), j < i → slotTest test slots[j] = false) :
    emptySlot test slots = slots.set i none := by
  induction slots generalizing i with
  | nil => exact absurd hi (Nat.not_lt_zero i)
  | cons slot slots ih =>
    cases i with
    | zero =>
      cases slot with
      | none => exact absurd htest (by simp [slotTest])
      | some p =>
        obtain ⟨k, v⟩ := p
        exact if_pos htest
    | succ i =>
      have hrest := ih (Nat.lt_of_succ_lt_succ hi) htest
        fun j hlt hj => hbefore (j + 1) (Nat.succ_lt_succ hlt) (Nat.succ_lt_succ hj)
      have hfirst := hbefore 0 (Nat.succ_pos _) (Nat.succ_pos i)
      cases slot with
      | none => rw [emptySlot, hrest, List.set_cons_succ]
      | some p =>
        obtain ⟨k, v⟩ := p
        rw [emptySlot, hrest, List.set_cons_succ, if_neg (by simpa [slotTest] using hfirst)]

theorem fillHoles_encode (kind : Kind) {i : Nat} (hi : i < slots.length) :
    fillHoles (encode kind slots) (i * stride kind) (stride kind) =
      encode kind (slots.set i none) := by
  unfold fillHoles
  rw [List.set_eq_take_append_cons_drop, if_pos hi, take_encode,
    show i * stride kind + stride kind = (i + 1) * stride kind by rw [Nat.succ_mul], drop_encode,
    List.append_assoc, encode_append]
  rfl

theorem delete_encode (kind : Kind) (h : Agrees test key slots) :
    delete (stride kind) (encode kind slots) key.1 =
      (encode kind (emptySlot test slots), (live 0 slots).any fun e => test e.key) := by
  have hholds {i : Nat} (hi : i < slots.length) :
      holds key.1 (keySlot (stride kind) (encode kind slots) i) = slotTest test slots[i] := by
    rw [keySlot_encode hi, h.mem (List.getElem_mem hi)]
  unfold delete
  rw [length_div_stride, ← any_slotTest]
  cases hfind : (List.range slots.length).find? fun i =>
      holds key.1 (keySlot (stride kind) (encode kind slots) i) with
  | none =>
    have hnone : ∀ slot ∈ slots, slotTest test slot = false := by
      intro slot hmem
      obtain ⟨i, hi, rfl⟩ := List.getElem_of_mem hmem
      have hno := List.find?_range_eq_none.mp hfind i hi
      rw [hholds hi] at hno
      simpa using hno
    have hany : slots.any (slotTest test) = false := by
      simpa [List.any_eq_false] using hnone
    rw [emptySlot_of_none hnone, hany]
  | some i =>
    obtain ⟨hyes, hmem, hbefore⟩ := List.find?_range_eq_some.mp hfind
    have hi := List.mem_range.mp hmem
    rw [hholds hi] at hyes
    have hany : slots.any (slotTest test) = true :=
      List.any_eq_true.mpr ⟨slots[i], List.getElem_mem hi, hyes⟩
    have hfirst : emptySlot test slots = slots.set i none := by
      refine emptySlot_of_first hi hyes fun j hlt hj => ?_
      have hno := hbefore j hj
      rw [hholds hlt] at hno
      simpa using hno
    rw [hfirst, hany]
    exact congrArg (·, true) (fillHoles_encode kind hi)

theorem mapGet_encode (n : Nat) (h : Agrees test key slots) :
    mapGet key.1 (encode .map slots) =
      ((((live n slots).find? fun e => test e.key).map Entry.value).getD .undefined) := by
  induction slots generalizing n with
  | nil => rfl
  | cons slot slots ih =>
    have hrest := ih (n + 1) h.rest
    cases slot with
    | none => exact hrest
    | some p =>
      obtain ⟨k, v⟩ := p
      have hcons : encode .map (some (k, v) :: slots) = k.1 :: v :: encode .map slots := rfl
      rw [hcons, mapGet, h.first, hrest, live, List.find?_cons]
      cases test k <;> rfl

theorem mapSet_encode (value : JsValue) (h : Agrees test key slots) :
    mapSet key.1 value (encode .map slots) = encode .map (putSlot test key value slots) := by
  induction slots with
  | nil => rfl
  | cons slot slots ih =>
    have hrest := ih h.rest
    cases slot with
    | none =>
      have hcons : encode .map (none :: slots) = .hole :: .hole :: encode .map slots := rfl
      rw [hcons, mapSet, hrest]
      rfl
    | some p =>
      obtain ⟨k, v⟩ := p
      have hcons : encode .map (some (k, v) :: slots) = k.1 :: v :: encode .map slots := rfl
      rw [hcons, mapSet, h.first, hrest, putSlot]
      cases test k <;> rfl

theorem setAdd_encode (value : JsValue) (h : Agrees test key slots) :
    setAdd key.1 (encode .set slots) = encode .set (putSlot test key value slots) := by
  unfold setAdd
  induction slots with
  | nil => rfl
  | cons slot slots ih =>
    have hrest := ih h.rest
    cases slot with
    | none =>
      have hcons : encode .set (none :: slots) = .hole :: encode .set slots := rfl
      have hhole : holds key.1 .hole = false := rfl
      rw [hcons, List.any_cons, hhole, Bool.false_or, putSlot, List.cons_append, ← apply_ite, hrest]
      rfl
    | some p =>
      obtain ⟨k, v⟩ := p
      have hcons : encode .set (some (k, v) :: slots) = k.1 :: encode .set slots := rfl
      rw [hcons, List.any_cons, h.first, putSlot]
      cases test k with
      | true => rfl
      | false =>
        rw [Bool.false_or, List.cons_append, ← apply_ite, hrest]
        rfl

end Agreeing

theorem mapCount_encode (n : Nat) (slots : List (Slot Key JsValue)) :
    mapCount (encode .map slots) = (live n slots).length := by
  induction slots generalizing n with
  | nil => rfl
  | cons slot slots ih =>
    cases slot with
    | none =>
      have hcons : encode .map (none :: slots) = .hole :: .hole :: encode .map slots := rfl
      rw [hcons, mapCount, ih (n + 1), live, JsValue.isHole, if_pos rfl, Nat.zero_add]
    | some p =>
      obtain ⟨k, v⟩ := p
      have hcons : encode .map (some (k, v) :: slots) = k.1 :: v :: encode .map slots := rfl
      rw [hcons, mapCount, ih (n + 1), k.2, live, List.length_cons, Nat.add_comm]
      rfl

theorem setCount_encode (n : Nat) (slots : List (Slot Key JsValue)) :
    setCount (encode .set slots) = (live n slots).length := by
  unfold setCount
  induction slots generalizing n with
  | nil => rfl
  | cons slot slots ih =>
    cases slot with
    | none => exact ih (n + 1)
    | some p =>
      obtain ⟨k, v⟩ := p
      have hcons : encode .set (some (k, v) :: slots) = k.1 :: encode .set slots := rfl
      rw [hcons, List.filter_cons, k.2, if_pos (by rfl), List.length_cons, ih (n + 1)]
      rfl

theorem mapClear_encode (slots : List (Slot Key JsValue)) :
    mapClear (encode .map slots) = encode .map (List.replicate slots.length none) := by
  induction slots with
  | nil => rfl
  | cons slot slots ih =>
    cases slot with
    | none => exact congrArg (fun rest => JsValue.hole :: .hole :: rest) ih
    | some p => exact congrArg (fun rest => JsValue.hole :: .hole :: rest) ih

theorem setClear_encode (slots : List (Slot Key JsValue)) :
    setClear (encode .set slots) = encode .set (List.replicate slots.length none) := by
  induction slots with
  | nil => rfl
  | cons slot slots ih =>
    cases slot with
    | none => exact congrArg (JsValue.hole :: ·) ih
    | some p => exact congrArg (JsValue.hole :: ·) ih

theorem nextFull_encode (kind : Kind) (slots : List (Slot Key JsValue)) (index : Nat) :
    nextFull kind (encode kind slots) index =
      ((live 0 slots).find? fun e => index ≤ e.stamp).map Entry.stamp := by
  have hfind := find?_live 0 index slots
  rw [Nat.zero_add] at hfind
  rw [hfind]
  unfold nextFull
  rw [sourceLen_encode]
  rcases Nat.lt_or_ge slots.length index with hlt | hge
  · rw [Nat.sub_eq_zero_of_le hlt.le, List.drop_eq_nil_of_le hlt.le]
    rfl
  · refine advance_eq (fun i hi => ?_) _ index (by omega)
    rw [entryAt_encode hi]
    cases slots[i] with
    | none => rfl
    | some p =>
      obtain ⟨k, v⟩ := p
      have hkey : (entryOf kind ⟨i, k, v⟩).1 = k.1 := by cases kind <;> rfl
      rw [Option.isNone_some, hkey]
      exact k.2

/-! ## §4 The simulation -/

theorem eq_of_zeros {x y : BitVec 64} (hx : eq x 0#64 = true) (hy : eq y 0#64 = true) :
    eq x y = true := by
  have hzero {z : BitVec 64} (hz : eq z 0#64 = true) : ¬ IsNaN z ∧ units z = 0 := by
    obtain ⟨hnan, -, heq⟩ := of_decide_eq_true hz
    rcases heq with rfl | ⟨hunits, -⟩
    · exact ⟨hnan, by decide⟩
    · exact ⟨hnan, hunits⟩
  obtain ⟨hxn, hxu⟩ := hzero hx
  obtain ⟨hyn, hyu⟩ := hzero hy
  exact decide_eq_true ⟨hxn, hyn, .inr ⟨hxu, hyu⟩⟩

theorem sameValueZero_refl (c : Contents) (a : JsValue) : SameValueZero c a a = true := by
  unfold SameValueZero
  cases hnum : numOf a with
  | none => cases a <;> simp
  | some x =>
    by_cases hnan : IsNaN x
    · simp [hnan]
    · simp [eq, hnan]

theorem sameValueZero_eq {a b : JsValue} (h : SameValueZero c a b = true → Comparable a b) :
    sameValueZero a b = SameValueZero c a b := by
  by_cases hdouble : a.asF64.isSome = true ∧ b.asF64.isSome = true
  · obtain ⟨x, hx⟩ := Option.isSome_iff_exists.mp hdouble.1
    obtain ⟨y, hy⟩ := Option.isSome_iff_exists.mp hdouble.2
    have hzeros : (eq x 0#64 && eq y 0#64) = true → eq x y = true := by
      intro hboth
      obtain ⟨hxz, hyz⟩ := (Bool.and_eq_true _ _).mp hboth
      exact eq_of_zeros hxz hyz
    simp only [sameValueZero, SameValueZero, numOf, hx, hy]
    rw [Bool.eq_iff_iff]
    simp only [Bool.or_eq_true]
    constructor
    · rintro (hsame | hzero)
      · exact hsame
      · exact .inr (hzeros hzero)
    · exact .inl
  · have hcode : sameValueZero a b = decide (a = b) := by
      unfold sameValueZero
      cases hx : a.asF64 with
      | none => rfl
      | some x =>
        cases hy : b.asF64 with
        | none => rfl
        | some y => exact absurd ⟨by rw [hx]; rfl, by rw [hy]; rfl⟩ hdouble
    rw [hcode, Bool.eq_iff_iff, decide_eq_true_eq]
    constructor
    · rintro rfl
      exact sameValueZero_refl c a
    · intro hsame
      exact (h hsame).resolve_right hdouble

theorem Recognised.agrees {slots : List (Slot Key JsValue)} {key : Key}
    (h : Recognised c kind (encode kind slots) key) :
    Agrees (fun k => SameValueZero c k.1 key.1) key slots := by
  intro k v hmem
  refine sameValueZero_eq (h k.1 ?_)
  obtain ⟨i, hi, hslot⟩ := List.getElem_of_mem hmem
  have hkey : keySlot (stride kind) (encode kind slots) i = slotKey slots[i] := keySlot_encode hi
  rw [hslot, slotKey] at hkey
  refine List.mem_filter.mpr ⟨List.mem_map.mpr ⟨i, ?_, hkey⟩, by rw [k.2]; rfl⟩
  rw [length_div_stride]
  exact List.mem_range.mpr hi

/-- A cursor of the source stands for a place. -/
inductive Stands (kind : Kind) : Cursor → Place → Prop
  | iterator (it : IterKind) {time : Nat} (h : (time : Int) ≤ SMI_MAX) :
    Stands kind (.iterator it (.smi time)) ⟨it.answer kind, some time⟩
  | ended (it : IterKind) : Stands kind (.iterator it (.smi SMI_MAX)) ⟨it.answer kind, none⟩
  | forEach (time : Option Nat) :
    Stands kind (.forEach time) ⟨fun e => .pair e.2 e.1, time⟩

/-- A state of the source stands for a collection. -/
structure Simulates (c : Contents) (kind : Kind) (s : State) (t : Collection c)
    (slots : List (Slot Key JsValue)) : Prop where
  elements : s.elements = encode kind slots
  map : Depicts slots t.map
  cursors : List.Forall₂ (Stands kind) s.cursors t.cursors

theorem smiMax_nonneg : 0 ≤ SMI_MAX := by
  unfold SMI_MAX
  omega

theorem smiOrF64_of_le {n : Nat} (h : (n : Int) ≤ SMI_MAX) : smiOrF64 n = .smi n := by
  have hmod : Int.bmod n (2 ^ 32) = n := by
    unfold SMI_MAX at h
    exact Int.bmod_eq_of_le (by omega) (by omega)
  have hmin : SMI_MIN ≤ (n : Int) := by
    unfold SMI_MIN
    omega
  unfold smiOrF64 fromI32Smi
  rw [hmod, if_pos ⟨hmin, h⟩]
  rfl

theorem smiOrF64_toNat (h : 0 ≤ n) (hle : n ≤ SMI_MAX) : smiOrF64 n.toNat = .smi n := by
  have hcast := Int.toNat_of_nonneg h
  rw [smiOrF64_of_le (by omega), hcast]

theorem numOf_smiOrF64 {n : Nat} (h : SizeFits n) : numOf (smiOrF64 n) = some (f64OfInt n) := by
  rcases h with hle | ⟨hlt, hnone⟩
  · rw [smiOrF64_of_le hle]
    rfl
  · have hraw : IsRaw (f64OfInt n) := isRaw_of_lt (toNat_f64OfInt_lt hlt)
    rw [smiOrF64, hnone, Option.getD_none, fromF64_of_isRaw hraw]
    rfl

theorem IndexFits.lt {index j : Nat} (h : IndexFits kind store index)
    (hj : nextFull kind store index = some j) :
    index ≤ j ∧ (j : Int) < SMI_MAX := by
  obtain ⟨hle, hlt, hfull, hbefore⟩ := advance_eq_some hj
  exact ⟨hle, h j (by omega) hle hfull fun i hi hi' => hbefore i hi' hi⟩

theorem indexOf_smi (h : 0 ≤ n) : indexOf (.smi n) = n.toNat := by
  simp [indexOf, asSmi, h]

theorem IndexFits.nextFull_ended (h : IndexFits kind store (indexOf (.smi SMI_MAX))) :
    nextFull kind store (indexOf (.smi SMI_MAX)) = none := by
  cases hnext : nextFull kind store (indexOf (.smi SMI_MAX)) with
  | none => rfl
  | some j =>
    obtain ⟨hle, hlt⟩ := h.lt hnext
    rw [indexOf_smi smiMax_nonneg] at hle
    omega

theorem Cursor.next_ended (it : IterKind) (hend : smiOrF64 SMI_MAX.toNat = .smi n)
    (hfull : nextFull kind store (indexOf (.smi n)) = none) :
    Cursor.next kind store (.iterator it (.smi n)) = (.iterator it (.smi n), .done) := by
  simp only [Cursor.next, hfull, hend]

section Step

variable {c : Contents} {kind : Kind} {slots : List (Slot Key JsValue)} {m : Dictionary c}

theorem nextFull_of_depicts (hmap : Depicts slots m) (index : Nat) :
    nextFull kind (encode kind slots) index = (m.next? index).map Entry.stamp := by
  rw [nextFull_encode, hmap.entries, InsertionMap.next?]

theorem entryAt_of_depicts (hmap : Depicts slots m) {index : Nat} {e : Entry Key JsValue}
    (he : m.next? index = some e) : entryAt kind (encode kind slots) e.stamp = entryOf kind e := by
  have hmem : e ∈ live 0 slots := hmap.entries ▸ List.mem_of_find?_eq_some he
  have hslot := getElem?_of_mem_live hmem
  rw [Nat.sub_zero] at hslot
  obtain ⟨hlt, hget⟩ := List.getElem?_eq_some_iff.mp hslot
  rw [entryAt_encode hlt, hget]

theorem Stands.step {cursor : Cursor} {p : Place} (h : Stands kind cursor p)
    (hmap : Depicts slots m)
    (hfits : ∀ it index, cursor = .iterator it index →
      IndexFits kind (encode kind slots) (indexOf index)) :
    (cursor.next kind (encode kind slots)).2 = (p.next kind m).2 ∧
      Stands kind (cursor.next kind (encode kind slots)).1 (p.next kind m).1 := by
  have hend := smiOrF64_toNat smiMax_nonneg (Int.le_refl SMI_MAX)
  cases h with
  | @iterator it time htime =>
    have hfull : nextFull kind (encode kind slots) time = (m.next? time).map Entry.stamp :=
      nextFull_of_depicts hmap time
    have hindex : indexOf (.smi time) = time := indexOf_smi (Int.natCast_nonneg time)
    have hfit := hfits it _ rfl
    rw [hindex] at hfit
    simp only [Cursor.next, Place.next, hindex, Option.bind_some]
    cases hnext : m.next? time with
    | none =>
      rw [hnext, Option.map_none] at hfull
      simp only [hfull, hend]
      exact ⟨trivial, .ended it⟩
    | some e =>
      rw [hnext, Option.map_some] at hfull
      have hlt := (hfit.lt hfull).2
      simp only [hfull, entryAt_of_depicts hmap hnext]
      rw [smiOrF64_of_le (by omega)]
      exact ⟨trivial, .iterator it (by omega)⟩
  | ended it =>
    have hfit := hfits it _ rfl
    rw [Cursor.next_ended it hend hfit.nextFull_ended]
    exact ⟨rfl, .ended it⟩
  | forEach time =>
    cases time with
    | none => exact ⟨rfl, .forEach none⟩
    | some time =>
      have hfull : nextFull kind (encode kind slots) time = (m.next? time).map Entry.stamp :=
        nextFull_of_depicts hmap time
      simp only [Cursor.next, Place.next, Option.bind_some]
      cases hnext : m.next? time with
      | none =>
        rw [hnext, Option.map_none] at hfull
        simp only [hfull]
        exact ⟨trivial, .forEach none⟩
      | some e =>
        rw [hnext, Option.map_some] at hfull
        simp only [hfull, entryAt_of_depicts hmap hnext]
        exact ⟨trivial, .forEach (some (e.stamp + 1))⟩

end Step

theorem forall₂_set {α β : Type*} {R : α → β → Prop} {as : List α} {bs : List β}
    (h : List.Forall₂ R as bs) (i : Nat) {a : α} {b : β} (hab : R a b) :
    List.Forall₂ R (as.set i a) (bs.set i b) := by
  induction h generalizing i with
  | nil => exact .nil
  | cons hfirst hrest ih =>
    cases i with
    | zero => exact .cons hab hrest
    | succ i => exact .cons hfirst (ih i)

/-- **A call** that meets the condition answers as the collection does, and stands for it after. -/
theorem Simulates.call {s : State} {t : Collection c} {slots : List (Slot Key JsValue)}
    (h : Simulates c kind s t slots) (op : Op) (hmeets : Meets c kind s op) :
    (call kind s op).2 = (t.call kind op).2 ∧
      ∃ slots', Simulates c kind (call kind s op).1 (t.call kind op).1 slots' := by
  obtain ⟨helements, hmap, hcursors⟩ := h
  simp only [Meets, helements] at hmeets
  cases op with
  | put key value =>
    have hagrees := hmeets.agrees
    cases kind with
    | map =>
      refine ⟨rfl, _, ?_, hmap.put key value, hcursors⟩
      exact (congrArg _ helements).trans (mapSet_encode value hagrees)
    | set =>
      refine ⟨rfl, _, ?_, hmap.put key value, hcursors⟩
      exact (congrArg _ helements).trans (setAdd_encode value hagrees)
  | get key =>
    cases kind with
    | map =>
      refine ⟨?_, slots, helements, hmap, hcursors⟩
      have hget := mapGet_encode 0 hmeets.agrees
      rw [hmap.entries, ← helements] at hget
      exact congrArg Answer.value hget
    | set => exact ⟨rfl, slots, helements, hmap, hcursors⟩
  | has key =>
    refine ⟨?_, slots, helements, hmap, hcursors⟩
    have hhas := has_encode kind hmeets.agrees
    rw [hmap.entries, ← helements] at hhas
    exact congrArg Answer.bool hhas
  | delete key =>
    have hdelete := delete_encode kind hmeets.agrees
    rw [hmap.entries, ← helements] at hdelete
    simp only [V12.Collections.call, Collection.call, hdelete]
    exact ⟨rfl, _, rfl, hmap.delete key, hcursors⟩
  | clear =>
    cases kind with
    | map => exact ⟨rfl, _, (congrArg _ helements).trans (mapClear_encode slots), hmap.clear, hcursors⟩
    | set => exact ⟨rfl, _, (congrArg _ helements).trans (setClear_encode slots), hmap.clear, hcursors⟩
  | size =>
    have hcount : (liveKeys kind (encode kind slots)).length = t.map.size := by
      rw [liveKeys_encode kind 0, List.length_map, hmap.entries]
      rfl
    have hnumber := numOf_smiOrF64 hmeets
    have hlive : (live 0 slots).length = t.map.size := congrArg List.length hmap.entries
    rw [hcount] at hnumber
    cases kind with
    | map =>
      refine ⟨?_, slots, helements, hmap, hcursors⟩
      simp only [V12.Collections.call, Collection.call, helements, mapCount_encode 0, hlive, hnumber]
    | set =>
      refine ⟨?_, slots, helements, hmap, hcursors⟩
      simp only [V12.Collections.call, Collection.call, helements, setCount_encode 0, hlive, hnumber]
  | iterate it =>
    have hzero : smiOrF64 0 = .smi 0 := smiOrF64_of_le (by decide)
    refine ⟨rfl, slots, helements, hmap, ?_⟩
    refine List.rel_append hcursors (.cons ?_ .nil)
    rw [hzero]
    exact .iterator it (by decide)
  | forEach =>
    refine ⟨rfl, slots, helements, hmap, ?_⟩
    exact List.rel_append hcursors (.cons (.forEach (some 0)) .nil)
  | next i =>
    have hlength := hcursors.length_eq
    rcases Nat.lt_or_ge i s.cursors.length with hi | hi
    · have hi' : i < t.cursors.length := hlength ▸ hi
      have hcursor := List.getElem?_eq_getElem hi
      have hplace := List.getElem?_eq_getElem hi'
      have hstands : Stands kind s.cursors[i] t.cursors[i] := List.Forall₂.get hcursors hi hi'
      simp only [hcursor] at hmeets
      obtain ⟨hanswer, hstep⟩ := hstands.step hmap fun it index heq => by
        rw [heq] at hmeets
        exact hmeets
      simp only [V12.Collections.call, Collection.call, hcursor, hplace, helements]
      refine ⟨hanswer, slots, rfl, hmap, ?_⟩
      exact forall₂_set hcursors i hstep
    · have hcursor := List.getElem?_eq_none hi
      have hplace := List.getElem?_eq_none (hlength ▸ hi)
      simp only [V12.Collections.call, Collection.call, hcursor, hplace]
      exact ⟨trivial, slots, helements, hmap, hcursors⟩

/-- **Calls that meet the condition are answered as the ordered collection answers them.** -/
theorem behaves (c : Contents) (kind : Kind) (ops : List Op)
    (h : StepsMeet (fun s op => (call kind s op).1) (Meets c kind) State.empty ops) :
    Behaves c kind ops := by
  have hrun : ∀ (ops : List Op) {s : State} {t : Collection c} {slots : List (Slot Key JsValue)},
      Simulates c kind s t slots →
      StepsMeet (fun s op => (V12.Collections.call kind s op).1) (Meets c kind) s ops →
      answers kind s ops = Collection.answers kind t ops := by
    intro ops
    induction ops with
    | nil => intros; rfl
    | cons op ops ih =>
      intro s t slots hsim hmeets
      obtain ⟨hanswer, slots', hnext⟩ := hsim.call op hmeets.1
      rw [answers, Collection.answers, hanswer, ih hnext hmeets.2]
  have hempty : Simulates c kind .empty (.empty c) [] := ⟨rfl, ⟨rfl, rfl⟩, .nil⟩
  exact hrun ops hempty h

/-- `new Set([{}, {}])` with an iterator that an entry is deleted under. -/
theorem behaves_objects : Behaves ⟨fun _ => [], fun _ => 0⟩ .set
    [.put ⟨.object 1, rfl⟩ .undefined, .put ⟨.object 2, rfl⟩ .undefined, .iterate .values, .next 0,
      .delete ⟨.object 2, rfl⟩, .put ⟨.object 3, rfl⟩ .undefined, .next 0] :=
  behaves _ _ _ (by decide)

/-- `new Map([[0, 1]]).has(-0)` is false: a small integer and a double. -/
theorem not_behaves : ¬ ∀ (c : Contents) (kind : Kind) (ops : List Op), Behaves c kind ops := by
  intro h
  have hmap := h ⟨fun _ => [], fun _ => 0⟩ .map
    [.put ⟨.smi 0, rfl⟩ (.smi 1), .has ⟨.double (BitVec.ofNat 64 (2 ^ 63)), rfl⟩]
  unfold Behaves at hmap
  revert hmap
  decide

end V12.Collections
