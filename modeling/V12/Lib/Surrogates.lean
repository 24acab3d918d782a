/-
V12.Lib.Surrogates — what a lossy decoding does to a list of code units.

`lossy` decodes and encodes again. It keeps the length, and every unit but the
unpaired surrogates, which become U+FFFD. Whether a unit is unpaired shows in its
two neighbours, so windows and repetitions are treated offset by offset.
-/
import V12.Lib.Utf16

namespace Lib.Utf16

variable {u w : BitVec 16} {n a : Nat} {s : List (BitVec 16)}

/-! ## §1 Decoding step by step -/

def lossy (s : List (BitVec 16)) : List (BitVec 16) := encode (decode s)

def mark (u : BitVec 16) : BitVec 16 := if IsHigh u ∨ IsLow u then 0xFFFD else u

def LowHead (s : List (BitVec 16)) : Prop := ∃ w ∈ s.head?, IsLow w

theorem not_isLow_of_isHigh (h : IsHigh u) : ¬ IsLow u := by
  unfold IsHigh at h
  unfold IsLow
  omega

theorem toNat_ofNat_valid (h : n.isValidChar) : (Char.ofNat n).toNat = n := by
  unfold Char.ofNat
  rw [dif_pos h]
  rfl

theorem toNat_unitChar_le (u : BitVec 16) : (unitChar u).toNat < 0x10000 := by
  unfold unitChar
  split
  case isTrue => decide
  case isFalse h =>
    have hvalid : u.toNat.isValidChar := by
      unfold IsHigh IsLow at h
      have hlt := u.isLt
      unfold Nat.isValidChar
      omega
    rw [toNat_ofNat_valid hvalid]
    exact u.isLt

theorem encode_unitChar (u : BitVec 16) : encodeChar (unitChar u) = [mark u] := by
  unfold encodeChar
  rw [if_pos (toNat_unitChar_le u)]
  unfold unitChar mark
  split
  case isTrue => rfl
  case isFalse h =>
    have hvalid : u.toNat.isValidChar := by
      unfold IsHigh IsLow at h
      have hlt := u.isLt
      unfold Nat.isValidChar
      omega
    rw [toNat_ofNat_valid hvalid, BitVec.ofNat_toNat, BitVec.setWidth_eq]

theorem encode_map_unitChar (s : List (BitVec 16)) : encode (s.map unitChar) = s.map mark := by
  induction s with
  | nil => rfl
  | cons u s ih =>
    rw [List.map_cons, List.map_cons, encode_cons, encode_unitChar, ih, List.singleton_append]

theorem mark_eq_self : mark u = u ↔ ¬ (IsHigh u ∨ IsLow u) := by
  unfold mark
  split
  case isTrue h =>
    refine iff_of_false (fun hu => ?_) (not_not_intro h)
    subst hu
    revert h
    decide
  case isFalse h => exact iff_of_true rfl h

theorem encode_map_unitChar_eq_self :
    encode (s.map unitChar) = s ↔ ∀ u ∈ s, ¬ (IsHigh u ∨ IsLow u) := by
  have hself : s.map mark = s ↔ s.map mark = s.map id := by rw [List.map_id]
  rw [encode_map_unitChar, hself, List.map_inj_left]
  exact forall₂_congr fun u _ => mark_eq_self

@[simp] theorem lossy_nil : lossy [] = [] := rfl

theorem lossy_cons (h : ¬ (IsHigh u ∧ LowHead s)) :
    lossy (u :: s) = mark u :: lossy s := by
  have hdecode : decode (u :: s) = unitChar u :: decode s := by
    cases s with
    | nil => rfl
    | cons w s => exact if_neg fun hpair => h ⟨hpair.1, w, rfl, hpair.2⟩
  rw [lossy, hdecode, encode_cons, encode_unitChar]
  rfl

theorem lossy_pair (hu : IsHigh u) (hw : IsLow w) (s : List (BitVec 16)) :
    lossy (u :: w :: s) = u :: w :: lossy s := by
  have hdecode : decode (u :: w :: s) =
      Char.ofNat (0x10000 + (u.toNat - 0xD800) * 0x400 + (w.toNat - 0xDC00)) :: decode s :=
    if_pos ⟨hu, hw⟩
  unfold IsHigh at hu
  unfold IsLow at hw
  have hvalid :
      (0x10000 + (u.toNat - 0xD800) * 0x400 + (w.toNat - 0xDC00)).isValidChar := by
    unfold Nat.isValidChar
    omega
  rw [lossy, hdecode, encode_cons, encodeChar, toNat_ofNat_valid hvalid,
    if_neg (by omega)]
  have hhigh : 0xD800 + (0x10000 + (u.toNat - 0xD800) * 0x400 + (w.toNat - 0xDC00) - 0x10000) / 0x400 =
      u.toNat := by omega
  have hlow : 0xDC00 + (0x10000 + (u.toNat - 0xD800) * 0x400 + (w.toNat - 0xDC00) - 0x10000) % 0x400 =
      w.toNat := by omega
  rw [hhigh, hlow, BitVec.ofNat_toNat, BitVec.ofNat_toNat, BitVec.setWidth_eq, BitVec.setWidth_eq]
  rfl

/-! ## §2 Unpaired surrogates -/

/-- The unit at an offset is a surrogate without its other half beside it. -/
def Unpaired (s : List (BitVec 16)) (i : Nat) : Prop :=
  ∃ u, s[i]? = some u ∧
    ((IsHigh u ∧ ¬ ∃ w, s[i + 1]? = some w ∧ IsLow w) ∨
      (IsLow u ∧ ¬ ∃ w, 0 < i ∧ s[i - 1]? = some w ∧ IsHigh w))

def Paired (s : List (BitVec 16)) : Prop := ∀ i, ¬ Unpaired s i

theorem unpaired_head (h : ¬ (IsHigh u ∧ LowHead s)) :
    Unpaired (u :: s) 0 ↔ IsHigh u ∨ IsLow u := by
  constructor
  · rintro ⟨v, hv, hcase⟩
    obtain rfl := Option.some.inj hv
    rcases hcase with ⟨hhigh, -⟩ | ⟨hlow, -⟩
    · exact .inl hhigh
    · exact .inr hlow
  · intro hu
    refine ⟨u, rfl, ?_⟩
    rcases hu with hhigh | hlow
    · refine .inl ⟨hhigh, ?_⟩
      rintro ⟨w, hw, hlow⟩
      refine h ⟨hhigh, w, ?_, hlow⟩
      rw [List.getElem?_cons_succ] at hw
      rw [List.head?_eq_getElem?]
      exact hw
    · refine .inr ⟨hlow, ?_⟩
      rintro ⟨w, hpos, -⟩
      exact absurd hpos (Nat.lt_irrefl 0)

theorem unpaired_cons (h : ¬ (IsHigh u ∧ LowHead s)) (i : Nat) :
    Unpaired (u :: s) (i + 1) ↔ Unpaired s i := by
  have hprevious : ∀ v, s[i]? = some v → IsLow v →
      ((∃ w, 0 < i + 1 ∧ (u :: s)[i]? = some w ∧ IsHigh w) ↔
        ∃ w, 0 < i ∧ s[i - 1]? = some w ∧ IsHigh w) := by
    intro v hv hlow
    cases i with
    | zero =>
      constructor
      · rintro ⟨w, -, hw, hhigh⟩
        obtain rfl := Option.some.inj hw
        refine absurd ⟨hhigh, v, ?_, hlow⟩ h
        rw [List.head?_eq_getElem?]
        exact hv
      · rintro ⟨w, hpos, -⟩
        exact absurd hpos (Nat.lt_irrefl 0)
    | succ i =>
      constructor
      · rintro ⟨w, -, hw, hhigh⟩
        exact ⟨w, Nat.succ_pos i, hw, hhigh⟩
      · rintro ⟨w, -, hw, hhigh⟩
        exact ⟨w, Nat.succ_pos _, hw, hhigh⟩
  unfold Unpaired
  simp only [List.getElem?_cons_succ, Nat.add_sub_cancel]
  constructor
  · rintro ⟨v, hv, ⟨hhigh, hnext⟩ | ⟨hlow, hbefore⟩⟩
    · exact ⟨v, hv, .inl ⟨hhigh, hnext⟩⟩
    · exact ⟨v, hv, .inr ⟨hlow, fun hw => hbefore ((hprevious v hv hlow).mpr hw)⟩⟩
  · rintro ⟨v, hv, ⟨hhigh, hnext⟩ | ⟨hlow, hbefore⟩⟩
    · exact ⟨v, hv, .inl ⟨hhigh, hnext⟩⟩
    · exact ⟨v, hv, .inr ⟨hlow, fun hw => hbefore ((hprevious v hv hlow).mp hw)⟩⟩

theorem not_unpaired_pair (hu : IsHigh u) (hw : IsLow w) (s : List (BitVec 16)) {i : Nat}
    (hi : i < 2) : ¬ Unpaired (u :: w :: s) i := by
  rintro ⟨v, hv, hcase⟩
  match i with
  | 0 =>
    obtain rfl := Option.some.inj hv
    rcases hcase with ⟨-, hnext⟩ | ⟨hlow, -⟩
    · exact hnext ⟨w, rfl, hw⟩
    · exact not_isLow_of_isHigh hu hlow
  | 1 =>
    obtain rfl := Option.some.inj hv
    rcases hcase with ⟨hhigh, -⟩ | ⟨-, hbefore⟩
    · exact not_isLow_of_isHigh hhigh hw
    · exact hbefore ⟨u, Nat.one_pos, rfl, hu⟩
  | i + 2 => omega

theorem unpaired_behind_pair (hw : IsLow w) (s : List (BitVec 16)) (i : Nat) :
    Unpaired (u :: w :: s) (i + 2) ↔ Unpaired s i := by
  have hnot : ¬ (IsHigh w ∧ LowHead s) := fun h => not_isLow_of_isHigh h.1 hw
  rw [← unpaired_cons hnot i]
  unfold Unpaired
  simp only [List.getElem?_cons_succ, Nat.add_sub_cancel]
  have hprevious : (∃ v, 0 < i + 2 ∧ (u :: w :: s)[i + 2 - 1]? = some v ∧ IsHigh v) ↔
      ∃ v, 0 < i + 1 ∧ (w :: s)[i]? = some v ∧ IsHigh v := by
    simp only [show i + 2 - 1 = i + 1 from rfl, List.getElem?_cons_succ, Nat.succ_pos]
  rw [hprevious]

theorem decode_induction {P : List (BitVec 16) → Prop} (hnil : P [])
    (hcons : ∀ u s, ¬ (IsHigh u ∧ LowHead s) → P s → P (u :: s))
    (hpair : ∀ u w s, IsHigh u → IsLow w → P s → P (u :: w :: s)) (s : List (BitVec 16)) : P s := by
  have hall : ∀ n, ∀ s : List (BitVec 16), s.length ≤ n → P s := by
    intro n
    induction n with
    | zero =>
      intro s hs
      rw [List.eq_nil_of_length_eq_zero (Nat.le_zero.mp hs)]
      exact hnil
    | succ n ih =>
      intro s hs
      cases s with
      | nil => exact hnil
      | cons u s =>
        rw [List.length_cons] at hs
        by_cases h : IsHigh u ∧ LowHead s
        · obtain ⟨hu, w, hw, hlow⟩ := h
          cases s with
          | nil => cases hw
          | cons v s =>
            obtain rfl := Option.some.inj hw
            rw [List.length_cons] at hs
            exact hpair u v s hu hlow (ih s (by omega))
        · exact hcons u s h (ih s (by omega))
  exact hall s.length s (Nat.le_refl _)

@[simp] theorem length_lossy (s : List (BitVec 16)) : (lossy s).length = s.length := by
  induction s using decode_induction with
  | hnil => rfl
  | hcons u s h ih => rw [lossy_cons h, List.length_cons, ih, List.length_cons]
  | hpair u w s hu hw ih =>
    rw [lossy_pair hu hw, List.length_cons, List.length_cons, ih, List.length_cons, List.length_cons]

theorem lossy_eq_nil : lossy s = [] ↔ s = [] := by
  rw [← List.length_eq_zero_iff, length_lossy, List.length_eq_zero_iff]

theorem getElem?_lossy_of_paired {i : Nat} (h : ¬ Unpaired s i) :
    (lossy s)[i]? = s[i]? := by
  induction s using decode_induction generalizing i with
  | hnil => rfl
  | hcons u s hu ih =>
    rw [lossy_cons hu]
    cases i with
    | zero =>
      rw [unpaired_head hu] at h
      rw [List.getElem?_cons_zero, List.getElem?_cons_zero, mark, if_neg h]
    | succ i =>
      rw [unpaired_cons hu] at h
      rw [List.getElem?_cons_succ, List.getElem?_cons_succ, ih h]
  | hpair u w s hu hw ih =>
    rw [lossy_pair hu hw]
    match i with
    | 0 => rfl
    | 1 => rfl
    | i + 2 =>
      rw [unpaired_behind_pair hw] at h
      exact ih h

theorem getElem?_lossy_of_unpaired {i : Nat} (h : Unpaired s i) :
    (lossy s)[i]? = some 0xFFFD := by
  induction s using decode_induction generalizing i with
  | hnil =>
    obtain ⟨u, hu, -⟩ := h
    cases hu
  | hcons u s hu ih =>
    rw [lossy_cons hu]
    cases i with
    | zero =>
      rw [unpaired_head hu] at h
      rw [List.getElem?_cons_zero, mark, if_pos h]
    | succ i =>
      rw [unpaired_cons hu] at h
      rw [List.getElem?_cons_succ, ih h]
  | hpair u w s hu hw ih =>
    rw [lossy_pair hu hw]
    match i with
    | 0 => exact absurd h (not_unpaired_pair hu hw s (by decide))
    | 1 => exact absurd h (not_unpaired_pair hu hw s (by decide))
    | i + 2 =>
      rw [unpaired_behind_pair hw] at h
      exact ih h

theorem Unpaired.surrogate {i : Nat} (h : Unpaired s i) :
    ∃ u, s[i]? = some u ∧ (IsHigh u ∨ IsLow u) := by
  obtain ⟨u, hu, ⟨hhigh, -⟩ | ⟨hlow, -⟩⟩ := h
  · exact ⟨u, hu, .inl hhigh⟩
  · exact ⟨u, hu, .inr hlow⟩

theorem map_mark_lossy (s : List (BitVec 16)) : (lossy s).map mark = s.map mark := by
  refine List.ext_getElem? fun i => ?_
  rw [List.getElem?_map, List.getElem?_map]
  by_cases h : Unpaired s i
  · obtain ⟨u, hu, hsurrogate⟩ := h.surrogate
    rw [getElem?_lossy_of_unpaired h, hu, Option.map_some, Option.map_some, mark, mark,
      if_pos hsurrogate, if_neg (by decide)]
  · rw [getElem?_lossy_of_paired h]

theorem getElem?_lossy_eq_iff {i : Nat} :
    (lossy s)[i]? = s[i]? ↔ ¬ Unpaired s i := by
  constructor
  · intro heq h
    obtain ⟨u, hu, hsurrogate⟩ := h.surrogate
    rw [getElem?_lossy_of_unpaired h, hu] at heq
    obtain rfl := Option.some.inj heq
    revert hsurrogate
    decide
  · exact getElem?_lossy_of_paired

theorem lossy_eq_self_iff : lossy s = s ↔ Paired s := by
  constructor
  · intro h i
    rw [← getElem?_lossy_eq_iff, h]
  · intro h
    exact List.ext_getElem? fun i => getElem?_lossy_of_paired (h i)

@[simp] theorem lossy_lossy (s : List (BitVec 16)) : lossy (lossy s) = lossy s := by
  unfold lossy
  rw [decode_encode]

theorem paired_lossy (s : List (BitVec 16)) : Paired (lossy s) := by
  rw [← lossy_eq_self_iff, lossy_lossy]

/-! ## §3 Windows and joints -/

theorem not_unpaired_of_window {w : List (BitVec 16)} {i : Nat}
    (hw : ∀ j < w.length, w[j]? = s[a + j]?) (hi : i < w.length) (h : ¬ Unpaired w i) :
    ¬ Unpaired s (a + i) := by
  rintro ⟨u, hu, hcase⟩
  refine h ⟨u, (hw i hi).trans hu, ?_⟩
  rcases hcase with ⟨hhigh, hnext⟩ | ⟨hlow, hbefore⟩
  · refine .inl ⟨hhigh, ?_⟩
    rintro ⟨v, hv, hlow⟩
    obtain ⟨hlt, -⟩ := List.getElem?_eq_some_iff.mp hv
    exact hnext ⟨v, (hw (i + 1) hlt).symm.trans hv, hlow⟩
  · refine .inr ⟨hlow, ?_⟩
    rintro ⟨v, hpos, hv, hhigh⟩
    refine hbefore ⟨v, by omega, ?_, hhigh⟩
    rw [show a + i - 1 = a + (i - 1) by omega, ← hw (i - 1) (by omega), hv]

def window (s : List (BitVec 16)) (a n : Nat) : List (BitVec 16) := (s.drop a).take n

theorem getElem?_window (s : List (BitVec 16)) (a n i : Nat) :
    (window s a n)[i]? = if i < n then s[a + i]? else none := by
  unfold window
  rw [List.getElem?_take]
  split
  case isTrue => rw [List.getElem?_drop]
  case isFalse => rfl

theorem length_window (s : List (BitVec 16)) (a n : Nat) :
    (window s a n).length = min n (s.length - a) := by
  unfold window
  rw [List.length_take, List.length_drop]

theorem window_lossy (h : Paired (window s a n)) :
    window (lossy s) a n = window s a n := by
  refine List.ext_getElem? fun i => ?_
  rw [getElem?_window, getElem?_window]
  split
  case isTrue hi =>
    by_cases hlength : i < (window s a n).length
    · refine getElem?_lossy_of_paired (not_unpaired_of_window (fun j hj => ?_) hlength (h i))
      rw [length_window] at hj
      rw [getElem?_window, if_pos (by omega)]
    · rw [length_window] at hlength
      rw [List.getElem?_eq_none (by rw [length_lossy]; omega), List.getElem?_eq_none (by omega)]
  case isFalse => rfl

/-- **A window is kept** exactly if its surrogates come in pairs. -/
theorem lossy_window_lossy_iff :
    lossy (window (lossy s) a n) = window s a n ↔ Paired (window s a n) := by
  constructor
  · intro h
    rw [← h]
    exact paired_lossy _
  · intro h
    rw [window_lossy h, lossy_eq_self_iff.mpr h]

theorem lossy_append_of_paired {x : List (BitVec 16)} (hx : Paired x) (y : List (BitVec 16)) :
    lossy (x ++ y) = x ++ lossy y := by
  induction x using decode_induction with
  | hnil => rfl
  | hcons u s h ih =>
    have hu : ¬ (IsHigh u ∨ IsLow u) := by
      rw [← unpaired_head h]
      exact hx 0
    have hs : Paired s := fun i => by
      rw [← unpaired_cons h]
      exact hx (i + 1)
    have hnot : ¬ (IsHigh u ∧ LowHead (s ++ y)) := fun hpair => hu (.inl hpair.1)
    rw [List.cons_append, lossy_cons hnot, ih hs, mark, if_neg hu, List.cons_append]
  | hpair u w s hu hw ih =>
    have hs : Paired s := fun i => by
      rw [← unpaired_behind_pair hw]
      exact hx (i + 2)
    rw [List.cons_append, List.cons_append, lossy_pair hu hw, ih hs, List.cons_append,
      List.cons_append]

theorem not_lowHead_of_paired (h : Paired s) : ¬ LowHead s := by
  rintro ⟨w, hw, hlow⟩
  rw [List.head?_eq_getElem?] at hw
  refine h 0 ⟨w, hw, .inr ⟨hlow, ?_⟩⟩
  rintro ⟨v, hpos, -⟩
  exact absurd hpos (Nat.lt_irrefl 0)

theorem lossy_append_paired (x : List (BitVec 16)) {y : List (BitVec 16)} (hy : Paired y) :
    lossy (x ++ y) = lossy x ++ y := by
  induction x using decode_induction with
  | hnil => exact lossy_eq_self_iff.mpr hy
  | hcons u s h ih =>
    have hnot : ¬ (IsHigh u ∧ LowHead (s ++ y)) := by
      rintro ⟨hu, hlow⟩
      cases s with
      | nil => exact not_lowHead_of_paired hy hlow
      | cons v s => exact h ⟨hu, hlow⟩
    rw [List.cons_append, lossy_cons hnot, ih, lossy_cons h, List.cons_append]
  | hpair u w s hu hw ih =>
    rw [List.cons_append, List.cons_append, lossy_pair hu hw, ih, lossy_pair hu hw,
      List.cons_append, List.cons_append]

end Lib.Utf16
