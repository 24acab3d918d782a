/-
V12.Interp.ArrayLengthTheorems — when the `length` of an array stays above its
elements.

A write raises the length past its index and a deletion leaves it. An assignment
writes the slot and touches no element, so it does what an array's `length` has to
do where the value is a length already above every element (`Meets`), and so does
the assignment that ends a push.
-/
import V12.Interp.ArrayLength

namespace V12.Interp.ArrayLength

open V12.Heap V12.Heap.JsValue V12.Heap.ElementsStorage Lib.Binary64 Lib.Binary64.Double

/-! ## §1 Numbers -/

theorem toBits_ofInt {n : Nat} (hn : n < 2 ^ 53) : toBits (ofInt n) = f64OfInt n := by
  obtain ⟨hfinite, hneg, hunits⟩ := f64OfInt_exact (n := n) (by omega)
  have hround := roundUnits_mul (isFloat_of_lt hn).mul_unitsPerOne Nat.one_pos
  rw [Nat.mul_one] at hround
  have hsign : decide (((n : ℤ) : ℚ) < 0) = false := decide_eq_false (by simp)
  have hbits := ofUnits_units hfinite
  rw [hneg, hunits, decide_eq_false (by omega), Int.natAbs_natCast] at hbits
  simp only [toBits, ofInt, hsign, nearest]
  rw [← hbits]
  simp [hround]

theorem ofBits_f64OfInt {n : ℤ} (hn : n.natAbs < 2 ^ 53) : ofBits (f64OfInt n) = ofInt n := by
  unfold ofBits
  rw [if_pos (f64OfInt_exact hn).1, value_f64OfInt hn]
  rfl

theorem numberOf_smi {n : ℤ} (hn : n.natAbs < 2 ^ 53) : numberOf (.smi n) = some (ofInt n) := by
  rw [← ofBits_f64OfInt hn]
  rfl

theorem numberOf_boxed {n : Nat} (hn : n < 2 ^ 52) : numberOf (boxed (ofInt n)) = some (ofInt n) := by
  unfold boxed
  rw [toBits_ofInt (by omega), boxNumber_f64OfInt (by omega)]
  by_cases hsmi : InSmi (n : ℤ)
  · rw [smiValue_of_inSmi hsmi, numberOf_smi (by omega)]
  · have hraw := isRaw_of_lt (toNat_f64OfInt_lt (n := n) (by omega))
    have hnone : fromI32Smi (n : ℤ) = none := if_neg hsmi
    rw [smiValue, hnone, Option.getD_none, fromF64_of_isRaw hraw, ← ofBits_f64OfInt (by omega)]
    rfl

theorem ofInt_injective {m n : ℤ} (h : ofInt m = ofInt n) : m = n := by
  simpa [ofInt] using h

/-! ## §2 The store -/

/-- A store whose elements are below its extent. -/
structure Within (e : ElementsStorage) : Prop where
  onRung : e.OnRung
  small : e.len < 2 ^ 32
  below : ∀ i, (present (e.getBoxed i)).isSome → i < e.len

theorem isSome_of_reads {u v : Option JsValue} (h : Reads u v) : u.isSome = v.isSome := by
  cases h with
  | none => rfl
  | some _ => rfl

theorem isSome_set {e : ElementsStorage} (h : Within e) {i : Nat} (hi : i + 1 < 2 ^ 32) {v : JsValue}
    (hv : v.IsBoxed) (j : Nat) : (present ((e.set i v).getBoxed j)).isSome =
      if j = i then !v.isHole else (present (e.getBoxed j)).isSome := by
  rw [isSome_of_reads ((h.onRung.stores hi hv).reads j), apply_ite Option.isSome, present_some]
  cases v.isHole <;> rfl

theorem Within.set {e : ElementsStorage} (h : Within e) {i : Nat} (hi : i + 1 < 2 ^ 32) {v : JsValue}
    (hv : v.IsBoxed) : Within (e.set i v) := by
  have hstores := h.onRung.stores hi hv
  have hsmall := h.small
  refine ⟨hstores.onRung, by rw [hstores.len]; omega, fun j hj => ?_⟩
  rw [isSome_set h hi hv] at hj
  rw [hstores.len]
  split at hj
  · omega
  · have := h.below j hj
    omega

theorem within_new : Within .new :=
  ⟨⟨(fun u hu => by cases hu), by decide⟩, by decide, fun i hi => by cases hi⟩

theorem within_rebuild {values : List JsValue} (hlen : values.length < 2 ^ 32)
    (hboxed : ∀ v ∈ values, v.IsBoxed) :
    Within (.rebuild values) ∧ (ElementsStorage.rebuild values).len = values.length := by
  induction values using List.reverseRecOn with
  | nil => exact ⟨within_new, rfl⟩
  | append_singleton values v ih =>
    rw [List.length_append, List.length_singleton] at hlen ⊢
    obtain ⟨hwithin, hlength⟩ := ih (by omega) fun u hu => hboxed u (List.mem_append_left _ hu)
    have hv := hboxed v (by simp)
    rw [rebuild_concat, Nat.mod_eq_of_lt (by omega)]
    refine ⟨hwithin.set hlen hv, ?_⟩
    rw [(hwithin.onRung.stores hlen hv).len, hlength]
    omega

theorem within_append {values : List Boxed} {e : ElementsStorage} (h : Within e)
    (hlen : e.len + values.length < 2 ^ 32) :
    Within (values.foldl (fun e v => e.push v.1) e) ∧
      (values.foldl (fun e v => e.push v.1) e).len = e.len + values.length := by
  induction values generalizing e with
  | nil => exact ⟨h, rfl⟩
  | cons v values ih =>
    rw [List.length_cons] at hlen ⊢
    have hpush : (e.push v.1).len = e.len + 1 := by
      rw [push, (h.onRung.stores (by omega) v.2).len]
      omega
    have hwithin : Within (e.push v.1) := h.set (by omega) v.2
    obtain ⟨hrest, hlength⟩ := ih hwithin (by omega)
    exact ⟨hrest, by rw [List.foldl_cons, hlength, hpush]; omega⟩

/-! ## §3 One array -/

/-- An array whose length is above its elements, over a store that is. -/
structure Sound (a : JsArray) : Prop where
  store : Within a.elements
  length : LengthAbove a

theorem Sound.arraySetElement {a : JsArray} (h : Sound a) {i : Nat} (hi : i + 1 < 2 ^ 32)
    (value : Element) : Sound (arraySetElement a i value.1) ∧
      ∀ j, ((ArrayLength.arraySetElement a i value.1).element j).isSome →
        j = i ∨ (a.element j).isSome := by
  have hsome := isSome_set h.store hi value.2.1
  obtain ⟨n, hn, hlength, habove⟩ := h.length
  have hpresent : ∀ j, ((ArrayLength.arraySetElement a i value.1).element j).isSome →
      j = i ∨ (a.element j).isSome := by
    intro j hj
    have hj' := hsome j
    unfold JsArray.element at hj ⊢
    change (present ((a.elements.set i value.1).getBoxed j)).isSome = true at hj
    rw [hj'] at hj
    split at hj
    · next heq => exact .inl heq
    · exact .inr hj
  refine ⟨⟨h.store.set hi value.2.1, ?_⟩, hpresent⟩
  have hwanted : ElementsDictionary.saturatingSucc i = i + 1 := by
    unfold ElementsDictionary.saturatingSucc
    omega
  have hle : (ofInt ((i + 1 : Nat) : ℤ)).le (ofInt n) = decide (i + 1 ≤ n) := by
    rw [le_ofInt, decide_eq_decide]
    omega
  have hslot : (ArrayLength.arraySetElement a i value.1).length =
      if i + 1 ≤ n then a.length else boxed (ofInt ((i + 1 : Nat) : ℤ)) := by
    simp only [ArrayLength.arraySetElement, hwanted, hlength, Option.getD_some, hle,
      decide_eq_true_eq]
  by_cases hraise : i + 1 ≤ n
  · refine ⟨n, hn, by rw [hslot, if_pos hraise, hlength], fun j hj => ?_⟩
    rcases hpresent j hj with rfl | hj
    · exact hraise
    · exact habove j hj
  · refine ⟨i + 1, hi, by rw [hslot, if_neg hraise, numberOf_boxed (by omega)], fun j hj => ?_⟩
    rcases hpresent j hj with rfl | hj
    · omega
    · have := habove j hj
      omega

theorem Sound.setElement {a : JsArray} (h : Sound a) {i : Nat} (hi : i + 1 < 2 ^ 32)
    (strict : Bool) (chain : Chain) (value : Element) :
    Sound (setElement strict chain a i value.1).1 ∧
      (∀ j, ((ArrayLength.setElement strict chain a i value.1).1.element j).isSome →
        j = i ∨ (a.element j).isSome) ∧
      (ArrayLength.setElement strict chain a i value.1).1.lengthWritable = a.lengthWritable ∧
      (ArrayLength.setElement strict chain a i value.1).1.extensible = a.extensible := by
  obtain ⟨hsound, hpresent⟩ := h.arraySetElement hi value
  unfold ArrayLength.setElement
  split
  · exact ⟨hsound, hpresent, rfl, rfl⟩
  · cases chain with
    | takes => exact ⟨h, fun j => .inr, rfl, rfl⟩
    | refuses => exact ⟨h, fun j => .inr, rfl, rfl⟩
    | absent =>
      by_cases hext : a.extensible = true
      · simp only [if_pos hext]
        exact ⟨hsound, hpresent, rfl, rfl⟩
      · simp only [if_neg hext]
        exact ⟨h, fun j => .inr, trivial, trivial⟩

theorem Sound.deleteElement {a : JsArray} (h : Sound a) {i : Nat} (hi : i + 1 < 2 ^ 32) :
    Sound (deleteElement a i) := by
  obtain ⟨n, hn, hlength, habove⟩ := h.length
  refine ⟨h.store.set hi trivial, n, hn, hlength, fun j hj => ?_⟩
  have hsome := isSome_set h.store hi (v := .hole) trivial j
  change (present ((a.elements.set i .hole).getBoxed j)).isSome = true at hj
  rw [hsome] at hj
  split at hj
  · cases hj
  · exact habove j hj

theorem Sound.setLength {a : JsArray} (h : Sound a) (strict : Bool) {v : JsValue}
    (hv : a.lengthWritable = true → ∃ n : Nat, n < 2 ^ 32 ∧ numberOf v = some (ofInt n) ∧
      ∀ i, (a.element i).isSome → i < n) : Sound (setLength strict a v).1 := by
  unfold ArrayLength.setLength
  split
  · next hwrite =>
    obtain ⟨n, hn, hv, habove⟩ := hv hwrite
    exact ⟨h.store, n, hn, hv, habove⟩
  · exact h

theorem Sound.arrayAppend {a : JsArray} (h : Sound a) {values : List Boxed}
    (hlen : a.elements.len + values.length < 2 ^ 32) : Sound (arrayAppend a values) := by
  unfold ArrayLength.arrayAppend
  split
  · exact h
  · obtain ⟨hwithin, hlength⟩ := within_append h.store hlen
    refine ⟨hwithin, a.elements.len + values.length, hlen, ?_, fun i hi => ?_⟩
    · simp only [Nat.mod_eq_of_lt hlen]
      exact numberOf_boxed (by omega)
    · rw [← hlength]
      exact hwithin.below i hi

/-! ## §4 Pushing -/

theorem index_of_le {len : Double} (h : len.le (ofInt 4294967294) = true) :
    len.toI64.toNat + 1 < 2 ^ 32 := by
  cases len with
  | nan => cases h
  | infinite s =>
    cases s with
    | false => cases h
    | true => decide
  | finite q =>
    have hq : q ≤ 4294967294 := by
      simp only [le, lt, ofInt, Bool.or_eq_true, decide_eq_true_eq, Bool.and_eq_true, finite.injEq] at h
      rcases h with h | ⟨h, -⟩
      · exact_mod_cast h.le
      · exact_mod_cast h.le
    have htrunc : truncate q ≤ 4294967294 := by
      unfold truncate
      split
      · next hneg =>
        have : ⌈q⌉ ≤ 0 := Int.ceil_le.mpr (by exact_mod_cast hneg.le)
        omega
      · exact_mod_cast (Int.floor_le q).trans hq
    simp only [toI64]
    omega

theorem Sound.storeItem {a : JsArray} (h : Sound a) (len : Double) (item : Item) :
    Sound (storeItem a len item).1 ∧
      (ArrayLength.storeItem a len item).1.lengthWritable = a.lengthWritable := by
  unfold ArrayLength.storeItem
  split
  · next hle =>
    obtain ⟨hsound, -, hwritable, -⟩ := h.setElement (index_of_le hle) true item.chain item.value
    exact ⟨hsound, hwritable⟩
  · exact ⟨h, rfl⟩

theorem Sound.pushItems {a : JsArray} (h : Sound a) (items : List Item) (len : Double) :
    Sound (pushItems a len items).1 ∧
      (ArrayLength.pushItems a len items).1.lengthWritable = a.lengthWritable := by
  induction items generalizing a len with
  | nil => exact ⟨h, rfl⟩
  | cons item items ih =>
    obtain ⟨hsound, hwritable⟩ := h.storeItem len item
    rw [ArrayLength.pushItems]
    split
    · obtain ⟨hrest, hrest'⟩ := ih hsound (len.add (ofInt 1))
      exact ⟨hrest, hrest'.trans hwritable⟩
    · exact ⟨hsound, hwritable⟩

def Item.Stored (extensible : Bool) (item : Item) : Prop :=
  item.chain = .takes ∨ item.chain = .absent ∧ extensible = true

def indexed (m : Nat) (items : List Item) : List Item := items.take (4294967295 - m)

theorem le_limit (m : Nat) : (ofInt (m : ℤ)).le (ofInt 4294967294) = decide (m ≤ 4294967294) := by
  rw [le_ofInt, decide_eq_decide]
  omega

theorem index_ofInt {m : Nat} (hm : m < 2 ^ 53) : (ofInt (m : ℤ)).toI64.toNat = m := by
  rw [toI64_ofInt (by omega), Int.toNat_natCast]

theorem storeItem_done {a : JsArray} (h : Sound a) {item : Item} {m : Nat}
    (habove : ∀ i, (a.element i).isSome → i < m) (hm : m < 2 ^ 53)
    (hdone : (storeItem a (ofInt m) item).2 = true) :
    (m ≤ 4294967294 → item.Stored a.extensible) ∧
      (storeItem a (ofInt m) item).1.extensible = a.extensible ∧
      ∀ i, ((storeItem a (ofInt m) item).1.element i).isSome → i < m + 1 := by
  unfold storeItem at hdone ⊢
  simp only [le_limit, decide_eq_true_eq, index_ofInt hm] at hdone ⊢
  by_cases hle : m ≤ 4294967294
  · rw [if_pos hle] at hdone ⊢
    obtain ⟨-, hpresent, -, hext⟩ := h.setElement (i := m) (by omega) true item.chain item.value
    refine ⟨fun _ => ?_, hext, fun i hi => ?_⟩
    · have hnone : ¬ (a.element m).isSome = true := fun hsome => absurd (habove m hsome) (lt_irrefl m)
      unfold setElement at hdone
      rw [if_neg hnone] at hdone
      cases hchain : item.chain with
      | takes => exact .inl hchain
      | refuses =>
        rw [hchain] at hdone
        cases hdone
      | absent =>
        rw [hchain] at hdone
        refine .inr ⟨hchain, ?_⟩
        by_contra hno
        simp only [if_neg hno] at hdone
        cases hdone
    · rcases hpresent i hi with rfl | hi
      · omega
      · have := habove i hi
        omega
  · rw [if_neg hle]
    refine ⟨fun hle' => absurd hle' hle, rfl, fun i hi => ?_⟩
    have := habove i hi
    omega

theorem next_ofInt {m : Nat} (hm : m < 2 ^ 52) :
    (ofInt (m : ℤ)).add (ofInt 1) = ofInt ((m + 1 : Nat) : ℤ) := by
  rw [add_ofInt (by omega)]
  rfl

variable {a : JsArray} {items : List Item} {m : Nat}

theorem pushItems_stored (h : Sound a) (habove : ∀ i, (a.element i).isSome → i < m)
    (hm : m ≤ 4294967295) (hdone : (pushItems a (ofInt m) items).2.2 = true) :
    ∀ item ∈ indexed m items, item.Stored a.extensible := by
  induction items generalizing a m with
  | nil =>
    unfold indexed
    rw [List.take_nil]
    exact fun item hitem => by cases hitem
  | cons item items ih =>
    rw [pushItems] at hdone
    split at hdone
    · next hstore =>
      obtain ⟨hitem, hext, hnext⟩ := storeItem_done h habove (by omega) hstore
      rcases Nat.eq_or_lt_of_le hm with rfl | hlt
      · exact fun item hmem => by cases hmem
      · rw [next_ofInt (by omega)] at hdone
        have hrest := ih (h.storeItem _ item).1 hnext hlt hdone
        rw [hext] at hrest
        unfold indexed at hrest ⊢
        rw [show 4294967295 - m = (4294967295 - (m + 1)) + 1 by omega, List.take_succ_cons]
        intro other hmem
        rcases List.mem_cons.mp hmem with rfl | hmem
        · exact hitem (by omega)
        · exact hrest other hmem
    · cases hdone

theorem pushItems_behind (h : Sound a) (habove : ∀ i, (a.element i).isSome → i < m)
    (hlen : m + items.length < 2 ^ 32) (hdone : (pushItems a (ofInt m) items).2.2 = true) :
    (pushItems a (ofInt m) items).2.1 = ofInt (m + items.length : Nat) ∧
      ∀ i, ((pushItems a (ofInt m) items).1.element i).isSome → i < m + items.length := by
  induction items generalizing a m with
  | nil => exact ⟨rfl, habove⟩
  | cons item items ih =>
    rw [List.length_cons] at hlen ⊢
    rw [pushItems] at hdone ⊢
    split at hdone
    · next hstore =>
      obtain ⟨-, -, hnext⟩ := storeItem_done h habove (by omega) hstore
      rw [next_ofInt (by omega)] at hdone
      rw [if_pos hstore, next_ofInt (by omega), show m + (items.length + 1) = m + 1 + items.length by omega]
      exact ih (h.storeItem _ item).1 hnext (by omega) hdone
    · cases hdone

/-! ## §5 Runs -/

/-- A value that is a length above every element is assigned; items pushed do not take the length
past 2³² − 1, unless one of their writes throws; nor do values appended. -/
def Meets (a : JsArray) (op : Op) : Prop :=
  match op with
  | .assign v _ => a.lengthWritable = true → ∃ n : Nat, n < 2 ^ 32 ∧
      numberOf v.1 = some (ofInt n) ∧ ∀ i, (a.element i).isSome → i < n
  | .push items => a.lengthWritable = true → ∀ n : Nat, numberOf a.length = some (ofInt n) →
      (∀ item ∈ indexed n items, item.Stored a.extensible) → n + items.length < 2 ^ 32
  | .append values => a.elements.len + values.length < 2 ^ 32
  | _ => True

theorem toLength_number (toNumber : JsValue → Double) {v : JsValue} {n : Nat} (hn : n < 2 ^ 52)
    (hv : numberOf v = some (ofInt n)) : toLength toNumber v = ofInt n := by
  have hfinite : (ofInt (n : ℤ)).isFinite = true := rfl
  simp only [toLength, hv, Option.getD_some, hfinite, lt_ofInt, Bool.true_and, decide_eq_true_eq,
    trunc_ofInt]
  split
  · rfl
  · rw [show n = 0 by omega]
    rfl

theorem Sound.arrayPush (toNumber : JsValue → Double) (h : Sound a) (hmeets : Meets a (.push items)) :
    Sound (arrayPush toNumber a items).1 := by
  obtain ⟨n, hn, hlength, habove⟩ := h.length
  unfold ArrayLength.arrayPush
  rw [toLength_number toNumber (by omega) hlength]
  obtain ⟨hsound, hwritable⟩ := h.pushItems items (ofInt n)
  by_cases hdone : (ArrayLength.pushItems a (ofInt n) items).2.2 = true
  · simp only [hdone, if_true]
    refine hsound.setLength true fun hwrite => ?_
    have hfits := hmeets (hwritable ▸ hwrite) n hlength (pushItems_stored h habove (by omega) hdone)
    obtain ⟨hlen, hbehind⟩ := pushItems_behind h habove hfits hdone
    exact ⟨n + items.length, hfits, by rw [hlen, numberOf_boxed (by omega)], hbehind⟩
  · simp only [hdone, if_false, Bool.false_eq_true]
    exact hsound

/-- **Step**: an operation that meets the condition keeps the array sound. -/
theorem Sound.step (toNumber : JsValue → Double) (h : Sound a) {op : Op} (hmeets : Meets a op) :
    Sound (step toNumber a op) := by
  cases op with
  | write idx value strict chain => exact (h.setElement (by omega) strict chain value).1
  | delete idx => exact h.deleteElement (by omega)
  | assign v strict => exact h.setLength strict hmeets
  | push items => exact h.arrayPush toNumber hmeets
  | append values => exact h.arrayAppend hmeets
  | freeze lengthWritable extensible => exact ⟨h.store, h.length⟩

theorem validLength_number (toNumber : JsValue → Double) {v : JsValue} {n : Nat} (hn : n < 2 ^ 32)
    (hv : numberOf v = some (ofInt n)) : validLength toNumber v = some n := by
  have hcast : (((n : ℤ) : ℚ)).num = n := Rat.num_intCast n
  have hden : (((n : ℤ) : ℚ)).den = 1 := Rat.den_intCast n
  simp only [validLength, hv, Option.getD_some, ofInt, hcast, hden, Int.toNat_natCast]
  rw [if_pos ⟨trivial, by omega, by omega⟩]

theorem stepRight_of_meets (toNumber : JsValue → Double) {op : Op} (hmeets : Meets a op) :
    StepRight toNumber a op := by
  cases op with
  | assign v strict =>
    unfold StepRight
    simp only [ArrayLength.step, perform, ArrayLength.setLength]
    by_cases hwrite : a.lengthWritable = true
    · obtain ⟨n, hn, hv, habove⟩ := hmeets hwrite
      simp only [hwrite, if_true, validLength_number toNumber hn hv]
      refine ⟨hv, fun i => ?_⟩
      split
      · rfl
      · next hge =>
        rw [← Option.not_isSome_iff_eq_none]
        exact fun hsome => hge (habove i hsome)
    · simp only [hwrite, if_false, Bool.false_eq_true]
  | delete idx => rfl
  | write idx value strict chain => exact trivial
  | push items => exact trivial
  | append values => exact trivial
  | freeze lengthWritable extensible => exact trivial

theorem sound_fresh (made : Made) : Sound made.fresh := by
  cases made with
  | array values fits =>
    have hboxed : ∀ v ∈ values.map fun v => v.1, v.IsBoxed := by
      intro v hv
      obtain ⟨b, -, rfl⟩ := List.mem_map.mp hv
      exact b.2
    obtain ⟨hwithin, hlen⟩ := within_rebuild (by rw [List.length_map]; omega) hboxed
    rw [List.length_map] at hlen
    refine ⟨hwithin, values.length, by omega, numberOf_smi (by omega), fun i hi => ?_⟩
    rw [← hlen]
    exact hwithin.below i hi
  | sparse len =>
    exact ⟨within_new, len, len.2, numberOf_boxed (by omega), fun i hi => by cases hi⟩

/-- **In a run whose steps meet the condition, the length stays above every index.** -/
theorem lengthKept (toNumber : JsValue → Double) (made : Made) (ops : List Op)
    (h : Lib.StepsMeet (step toNumber) Meets made.fresh ops) : LengthKept toNumber made ops := by
  rintro before rest rfl
  obtain ⟨hbefore, hrest⟩ := Lib.stepsMeet_append.mp h
  have hsound : Sound (Lib.run (step toNumber) made.fresh before) :=
    Lib.run_invariant (fun _ _ hs hm => hs.step toNumber hm) (sound_fresh made) hbefore
  refine ⟨hsound.length, fun op hop => ?_⟩
  cases rest with
  | nil => cases hop
  | cons op' rest =>
    obtain rfl := Option.some.inj hop
    exact stepRight_of_meets toNumber hrest.1

/-- `[1, 2]`, then `a.length = 9`, `delete a[1]` and `a.push(3)`. -/
theorem lengthKept_grown : LengthKept (fun _ => .nan)
    (.array [⟨.smi 1, by decide⟩, ⟨.smi 2, by decide⟩] (by decide))
    [.assign ⟨.smi 9, by decide, by decide⟩ true, .delete ⟨1, by decide⟩,
      .push [⟨⟨.smi 3, by decide, by decide⟩, .absent⟩]] := by
  refine lengthKept _ _ _ ⟨fun _ => ⟨9, by decide, numberOf_smi (by decide), fun i hi => ?_⟩, trivial,
    fun _ n hn _ => ?_, trivial⟩
  · have hlt := (sound_fresh (.array [⟨.smi 1, by decide⟩, ⟨.smi 2, by decide⟩] (by decide))).store.below i hi
    exact Nat.lt_trans hlt (by decide)
  · have hnine : (9 : ℤ) = n :=
      ofInt_injective (Option.some.inj ((numberOf_smi (by decide)).symm.trans hn))
    simp only [List.length_singleton]
    omega

/-- `[1, 2, 3]`, then `a.length = 1`: the elements 2 and 3 are still there. -/
theorem not_lengthKept : ¬ ∀ toNumber made ops, LengthKept toNumber made ops := by
  intro h
  have hkept := h (fun _ => .nan) (.array [⟨.smi 1, by decide⟩, ⟨.smi 2, by decide⟩, ⟨.smi 3, by decide⟩]
    (by decide)) [.assign ⟨.smi 1, by decide, by decide⟩ false]
  obtain ⟨⟨n, -, hn, habove⟩, -⟩ := hkept _ [] (List.append_nil _).symm
  have hone : (1 : ℤ) = n :=
    ofInt_injective (Option.some.inj ((numberOf_smi (by decide)).symm.trans hn))
  have hlt := habove 2 (by decide)
  omega

end V12.Interp.ArrayLength
