/-
V12.Lib.Occurrences — where a list occurs in another, and the first such place.

`First` is about any relation between places; least and greatest offsets are the
two uses. Searching the windows of a list from the front or from the back finds
them.
-/
import Mathlib.Data.List.Infix
import Mathlib.Data.Nat.Find
import Mathlib.Tactic.Common

namespace Lib.Occurrences

/-! ## §1 First places -/

section First

variable {ι : Type} {before : ι → ι → Prop} {P Q : ι → Prop}

def IsFirst (before : ι → ι → Prop) (P : ι → Prop) (k : ι) : Prop := P k ∧ ∀ j, before j k → ¬ P j

/-- The answer is the first place of the property, or there is none. -/
def First (before : ι → ι → Prop) (P : ι → Prop) : Option ι → Prop
  | some k => IsFirst before P k
  | none => ∀ k, ¬ P k

def SameFirst (before : ι → ι → Prop) (P Q : ι → Prop) : Prop :=
  ∀ k, IsFirst before P k ↔ IsFirst before Q k

def HasFirst (before : ι → ι → Prop) (P : ι → Prop) : Prop := ∀ k, P k → ∃ j, IsFirst before P j

theorem IsFirst.unique (htotal : ∀ j k, j ≠ k → before j k ∨ before k j) {j k : ι}
    (hj : IsFirst before P j) (hk : IsFirst before P k) : j = k := by
  by_contra hne
  rcases htotal j k hne with h | h
  · exact hk.2 j h hj.1
  · exact hj.2 k h hk.1

theorem First.of_iff (h : ∀ k, P k ↔ Q k) {r : Option ι} (hP : First before P r) :
    First before Q r := by
  have hPQ : P = Q := funext fun k => propext (h k)
  rwa [← hPQ]

/-- **The first place of one property is that of another** exactly if they agree on it. -/
theorem First.congr_iff (htotal : ∀ j k, j ≠ k → before j k ∨ before k j) (hQ : HasFirst before Q)
    {r : Option ι} (h : First before P r) :
    First before Q r ↔ SameFirst before P Q := by
  constructor
  · intro h' k
    cases r with
    | none => exact iff_of_false (fun hk => h k hk.1) (fun hk => h' k hk.1)
    | some j =>
      constructor
      · intro hk
        rwa [← IsFirst.unique htotal h hk]
      · intro hk
        rwa [← IsFirst.unique htotal h' hk]
  · intro hsame
    cases r with
    | none =>
      intro k hk
      obtain ⟨j, hj⟩ := hQ k hk
      exact h j ((hsame j).mpr hj).1
    | some j => exact (hsame j).mp h

/-- **Two properties have the same first place** exactly if every place where they differ lies
behind one that has both. -/
theorem sameFirst_iff (htotal : ∀ j k, j ≠ k → before j k ∨ before k j)
    (htrans : ∀ i j k, before i j → before j k → before i k) (hP : HasFirst before P)
    (hQ : HasFirst before Q) : SameFirst before P Q ↔
      ∀ k, (P k ∧ ¬ Q k) ∨ (Q k ∧ ¬ P k) → ∃ j, before j k ∧ P j ∧ Q j := by
  have hfront {R : ι → Prop} {j k : ι} (hj : IsFirst before R j) (hk : R k) (hne : j ≠ k) :
      before j k := (htotal j k hne).resolve_right fun hkj => hj.2 k hkj hk
  constructor
  · rintro hsame k (⟨hk, hnot⟩ | ⟨hk, hnot⟩)
    · obtain ⟨j, hj⟩ := hP k hk
      have hj' := (hsame j).mp hj
      have hne : j ≠ k := fun heq => hnot (heq ▸ hj'.1)
      exact ⟨j, hfront hj hk hne, hj.1, hj'.1⟩
    · obtain ⟨j, hj⟩ := hQ k hk
      have hj' := (hsame j).mpr hj
      have hne : j ≠ k := fun heq => hnot (heq ▸ hj'.1)
      exact ⟨j, hfront hj hk hne, hj'.1, hj.1⟩
  · intro hdiffer k
    constructor
    · rintro ⟨hk, hfirst⟩
      refine ⟨Classical.byContradiction fun hnot => ?_, fun j hj hQj => ?_⟩
      · obtain ⟨j, hj, hPj, -⟩ := hdiffer k (.inl ⟨hk, hnot⟩)
        exact hfirst j hj hPj
      · obtain ⟨i, hi, hPi, -⟩ := hdiffer j (.inr ⟨hQj, hfirst j hj⟩)
        exact hfirst i (htrans i j k hi hj) hPi
    · rintro ⟨hk, hfirst⟩
      refine ⟨Classical.byContradiction fun hnot => ?_, fun j hj hPj => ?_⟩
      · obtain ⟨j, hj, -, hQj⟩ := hdiffer k (.inr ⟨hk, hnot⟩)
        exact hfirst j hj hQj
      · obtain ⟨i, hi, -, hQi⟩ := hdiffer j (.inl ⟨hPj, hfirst j hj⟩)
        exact hfirst i (htrans i j k hi hj) hQi

end First

theorem hasFirst_lt (P : Nat → Prop) : HasFirst (· < ·) P := by
  intro k hk
  classical
  exact ⟨Nat.find ⟨k, hk⟩, Nat.find_spec ⟨k, hk⟩, fun j hj => Nat.find_min ⟨k, hk⟩ hj⟩

theorem hasFirst_gt {P : Nat → Prop} {n : Nat} (hP : ∀ k, P k → k ≤ n) : HasFirst (· > ·) P := by
  intro k hk
  classical
  have hex : ∃ m, P (n - m) := ⟨n - k, by rwa [Nat.sub_sub_self (hP k hk)]⟩
  refine ⟨n - Nat.find hex, Nat.find_spec hex, ?_⟩
  intro j hj hPj
  have hle := hP j hPj
  have hmin := Nat.find_min' hex (show P (n - (n - j)) by rwa [Nat.sub_sub_self hle])
  omega

theorem lt_total (j k : Nat) (h : j ≠ k) : j < k ∨ k < j := Nat.lt_or_gt_of_ne h

theorem gt_total (j k : Nat) (h : j ≠ k) : j > k ∨ k > j := (Nat.lt_or_gt_of_ne h).symm

/-! ## §2 Occurrences -/

variable {α : Type}

def OccursAt (xs ys : List α) (k : Nat) : Prop := k ≤ xs.length ∧ ys <+: xs.drop k

instance [DecidableEq α] (xs ys : List α) (k : Nat) : Decidable (OccursAt xs ys k) :=
  inferInstanceAs (Decidable (_ ∧ _))

theorem occursAt_iff {xs ys : List α} {k : Nat} : OccursAt xs ys k ↔
    k + ys.length ≤ xs.length ∧ (xs.drop k).take ys.length = ys := by
  unfold OccursAt
  rw [List.prefix_iff_eq_take]
  constructor
  · rintro ⟨hk, htake⟩
    have hlength := congrArg List.length htake
    rw [List.length_take, List.length_drop] at hlength
    exact ⟨by omega, htake.symm⟩
  · rintro ⟨hk, htake⟩
    exact ⟨by omega, htake.symm⟩

theorem occursAt_iff_getElem? {xs ys : List α} {k : Nat} : OccursAt xs ys k ↔
    k + ys.length ≤ xs.length ∧ ∀ i < ys.length, xs[k + i]? = ys[i]? := by
  rw [occursAt_iff]
  refine and_congr_right fun _ => ?_
  constructor
  · intro h i hi
    have hget := congrArg (·[i]?) h
    rwa [List.getElem?_take_of_lt hi, List.getElem?_drop] at hget
  · intro h
    refine List.ext_getElem? fun i => ?_
    by_cases hi : i < ys.length
    · rw [List.getElem?_take_of_lt hi, List.getElem?_drop, h i hi]
    · rw [List.getElem?_eq_none (by rw [List.length_take]; omega),
        List.getElem?_eq_none (by omega)]

theorem OccursAt.split {xs ys : List α} {k : Nat} (h : OccursAt xs ys k) :
    xs = xs.take k ++ ys ++ xs.drop (k + ys.length) := by
  obtain ⟨-, rest, hrest⟩ := h
  rw [← List.drop_drop, ← hrest, List.drop_left, List.append_assoc, hrest, List.take_append_drop]

theorem occursAt_nil {xs : List α} {k : Nat} : OccursAt xs [] k ↔ k ≤ xs.length :=
  ⟨fun h => h.1, fun h => ⟨h, List.nil_prefix⟩⟩

theorem occursAt_succ {x : α} {xs ys : List α} {k : Nat} :
    OccursAt (x :: xs) ys (k + 1) ↔ OccursAt xs ys k := by
  unfold OccursAt
  rw [List.length_cons, List.drop_succ_cons, Nat.add_le_add_iff_right]

theorem occursAt_zero {xs ys : List α} : OccursAt xs ys 0 ↔ ys <+: xs :=
  ⟨fun h => h.2, fun h => ⟨Nat.zero_le _, h⟩⟩

theorem exists_occursAt_iff {xs ys : List α} : (∃ k, OccursAt xs ys k) ↔ ys <:+: xs := by
  induction xs with
  | nil =>
    rw [List.infix_nil]
    constructor
    · rintro ⟨k, hk⟩
      have hfits := (Nat.le_add_left _ k).trans (occursAt_iff.mp hk).1
      exact List.eq_nil_of_length_eq_zero (Nat.le_zero.mp hfits)
    · rintro rfl
      exact ⟨0, occursAt_nil.mpr (Nat.le_refl _)⟩
  | cons x xs ih =>
    rw [List.infix_cons_iff, ← ih]
    constructor
    · rintro ⟨k, hk⟩
      cases k with
      | zero => exact .inl (occursAt_zero.mp hk)
      | succ k => exact .inr ⟨k, occursAt_succ.mp hk⟩
    · rintro (hfront | ⟨k, hk⟩)
      · exact ⟨0, occursAt_zero.mpr hfront⟩
      · exact ⟨k + 1, occursAt_succ.mpr hk⟩

/-- `windows`: the parts of a list of a given length, from the front. -/
def windows (xs : List α) (n : Nat) : List (List α) :=
  (List.range (xs.length + 1 - n)).map fun i => (xs.drop i).take n

theorem getElem?_windows (xs : List α) (n i : Nat) : (windows xs n)[i]? =
    if i < xs.length + 1 - n then some ((xs.drop i).take n) else none := by
  unfold windows
  rw [List.getElem?_map]
  split
  case isTrue h => rw [List.getElem?_range h, Option.map_some]
  case isFalse h =>
    rw [List.getElem?_eq_none (by rw [List.length_range]; omega)]
    rfl

theorem getElem?_windows_eq {xs ys : List α} {i : Nat} :
    (windows xs ys.length)[i]? = some ys ↔ OccursAt xs ys i := by
  rw [getElem?_windows, occursAt_iff]
  split
  case isTrue h =>
    rw [Option.some.injEq]
    exact ⟨fun heq => ⟨by omega, heq⟩, fun heq => heq.2⟩
  case isFalse h =>
    refine iff_of_false (fun heq => by cases heq) ?_
    rintro ⟨hle, -⟩
    omega

variable [DecidableEq α]

theorem first_findIdx? (ys : List α) (y : α) :
    First (· < ·) (fun k => ys[k]? = some y) (ys.findIdx? (· = y)) := by
  cases hfind : ys.findIdx? (· = y) with
  | none =>
    intro k hk
    have hnone := List.findIdx?_eq_none_iff.mp hfind y (List.mem_of_getElem? hk)
    exact absurd rfl (of_decide_eq_false hnone)
  | some i =>
    obtain ⟨hi, hyi, hbefore⟩ := List.findIdx?_eq_some_iff_getElem.mp hfind
    refine ⟨?_, ?_⟩
    · change ys[i]? = some y
      rw [List.getElem?_eq_getElem hi]
      exact congrArg some (of_decide_eq_true hyi)
    · intro j hj hyj
      obtain ⟨hlt, heq⟩ := List.getElem?_eq_some_iff.mp hyj
      exact hbefore j hj (decide_eq_true heq)

/-- `rposition`: the last place of an element. -/
def rposition (ys : List α) (y : α) : Option Nat :=
  (ys.reverse.findIdx? (· = y)).map fun i => ys.length - 1 - i

theorem first_rposition (ys : List α) (y : α) :
    First (· > ·) (fun k => ys[k]? = some y) (rposition ys y) := by
  have hfirst := first_findIdx? ys.reverse y
  unfold rposition
  cases hfind : ys.reverse.findIdx? (· = y) with
  | none =>
    rw [hfind] at hfirst
    intro k hk
    have hlt := (List.getElem?_eq_some_iff.mp hk).1
    refine hfirst (ys.length - 1 - k) ?_
    change ys.reverse[ys.length - 1 - k]? = some y
    rw [List.getElem?_reverse (by omega), show ys.length - 1 - (ys.length - 1 - k) = k by omega]
    exact hk
  | some i =>
    rw [hfind] at hfirst
    obtain ⟨hi, hbefore⟩ := hfirst
    have hlt : i < ys.length := by
      have hlt := (List.getElem?_eq_some_iff.mp hi).1
      rwa [List.length_reverse] at hlt
    change ys.reverse[i]? = some y at hi
    rw [List.getElem?_reverse hlt] at hi
    refine ⟨hi, ?_⟩
    intro j hj hyj
    have hjlt := (List.getElem?_eq_some_iff.mp hyj).1
    change j > ys.length - 1 - i at hj
    refine hbefore (ys.length - 1 - j) (by omega) ?_
    change ys.reverse[ys.length - 1 - j]? = some y
    rw [List.getElem?_reverse (by omega), show ys.length - 1 - (ys.length - 1 - j) = j by omega]
    exact hyj

/-! ## §3 Replacing -/

def firstAt (xs ys : List α) : Option Nat := (windows xs ys.length).findIdx? (· = ys)

theorem first_firstAt (xs ys : List α) : First (· < ·) (OccursAt xs ys) (firstAt xs ys) := by
  have hfirst := first_findIdx? (windows xs ys.length) ys
  simp only [getElem?_windows_eq] at hfirst
  exact hfirst

/-- `replace` with a limit of one: the first occurrence of `ys` becomes `zs`. -/
def replaceOnce (ys zs : List α) : List α → List α
  | [] => if ys = [] then zs else []
  | x :: xs => if ys <+: x :: xs then zs ++ (x :: xs).drop ys.length else x :: replaceOnce ys zs xs

/-- `replace`: occurrences of `ys`, from the front and without overlaps, become `zs`. The elements
of an occurrence that are still to come are skipped. -/
def replaceAll (ys zs : List α) : Nat → List α → List α
  | _, [] => []
  | skip + 1, _ :: xs => replaceAll ys zs skip xs
  | 0, x :: xs =>
    if ys <+: x :: xs then zs ++ replaceAll ys zs (ys.length - 1) xs else x :: replaceAll ys zs 0 xs

/-- `split`: the parts between occurrences. -/
def splitAll (ys : List α) : Nat → List α → List α → List (List α)
  | _, part, [] => [part]
  | skip + 1, part, _ :: xs => splitAll ys skip part xs
  | 0, part, x :: xs =>
    if ys <+: x :: xs then part :: splitAll ys (ys.length - 1) [] xs
    else splitAll ys 0 (part ++ [x]) xs

theorem replaceOnce_of_some {xs ys zs : List α} {k : Nat}
    (h : IsFirst (· < ·) (OccursAt xs ys) k) :
    replaceOnce ys zs xs = xs.take k ++ zs ++ xs.drop (k + ys.length) := by
  induction xs generalizing k with
  | nil =>
    obtain ⟨hoccurs, -⟩ := h
    have hfits := (Nat.le_add_left _ k).trans (occursAt_iff.mp hoccurs).1
    obtain rfl := List.eq_nil_of_length_eq_zero (Nat.le_zero.mp hfits)
    simp [replaceOnce]
  | cons x xs ih =>
    obtain ⟨hoccurs, hbefore⟩ := h
    unfold replaceOnce
    cases k with
    | zero =>
      rw [if_pos (occursAt_zero.mp hoccurs), List.take_zero, List.nil_append, Nat.zero_add]
    | succ k =>
      rw [if_neg fun hprefix => hbefore 0 (Nat.succ_pos k) (occursAt_zero.mpr hprefix)]
      have hnext := ih ⟨occursAt_succ.mp hoccurs, fun j hj h =>
        hbefore (j + 1) (Nat.succ_lt_succ hj) (occursAt_succ.mpr h)⟩
      rw [hnext, List.take_succ_cons, List.cons_append, List.cons_append, Nat.succ_add,
        List.drop_succ_cons]

theorem replaceAll_of_none {xs ys zs : List α} (h : ∀ k, ¬ OccursAt xs ys k) :
    replaceAll ys zs 0 xs = xs := by
  induction xs with
  | nil => rfl
  | cons x xs ih =>
    unfold replaceAll
    rw [if_neg fun hprefix => h 0 (occursAt_zero.mpr hprefix),
      ih fun k hk => h (k + 1) (occursAt_succ.mpr hk)]

theorem replaceAll_skip (ys zs front xs : List α) :
    replaceAll ys zs front.length (front ++ xs) = replaceAll ys zs 0 xs := by
  induction front with
  | nil => rfl
  | cons x front ih => exact ih

theorem replaceAll_front {ys : List α} (hys : ys ≠ []) (zs xs : List α) :
    replaceAll ys zs 0 (ys ++ xs) = zs ++ replaceAll ys zs 0 xs := by
  cases ys with
  | nil => exact absurd rfl hys
  | cons y ys =>
    rw [List.cons_append, replaceAll, ← List.cons_append, if_pos (List.prefix_append _ _),
      List.length_cons, Nat.add_sub_cancel, replaceAll_skip]

theorem replaceOnce_front (ys zs xs : List α) : replaceOnce ys zs (ys ++ xs) = zs ++ xs := by
  cases hfront : ys ++ xs with
  | nil =>
    obtain ⟨rfl, rfl⟩ := List.append_eq_nil_iff.mp hfront
    simp [replaceOnce]
  | cons x rest =>
    unfold replaceOnce
    rw [if_pos (hfront ▸ List.prefix_append ys xs), ← hfront, List.drop_left]

theorem replaceOnce_pass {ys zs xs : List α} {x : α} (h : ¬ ys <+: x :: xs) :
    replaceOnce ys zs (x :: xs) = x :: replaceOnce ys zs xs := if_neg h

theorem replaceAll_pass {ys zs xs : List α} {x : α} (h : ¬ ys <+: x :: xs) :
    replaceAll ys zs 0 (x :: xs) = x :: replaceAll ys zs 0 xs := if_neg h

theorem replaceAll_of_some {xs ys zs : List α} {k : Nat} (hys : ys ≠ [])
    (h : IsFirst (· < ·) (OccursAt xs ys) k) :
    replaceAll ys zs 0 xs =
      xs.take k ++ zs ++ replaceAll ys zs 0 (xs.drop (k + ys.length)) := by
  induction k generalizing xs with
  | zero =>
    obtain ⟨rest, rfl⟩ := occursAt_zero.mp h.1
    rw [replaceAll_front hys, Nat.zero_add, List.drop_left, List.take_zero, List.nil_append]
  | succ k ih =>
    obtain ⟨hoccurs, hbefore⟩ := h
    cases xs with
    | nil => exact absurd hoccurs.1 (Nat.not_succ_le_zero k)
    | cons x xs =>
      rw [replaceAll_pass fun hfront => hbefore 0 (Nat.succ_pos k) (occursAt_zero.mpr hfront),
        ih ⟨occursAt_succ.mp hoccurs, fun j hj hk =>
          hbefore (j + 1) (Nat.succ_lt_succ hj) (occursAt_succ.mpr hk)⟩,
        List.take_succ_cons, Nat.succ_add, List.drop_succ_cons, List.cons_append, List.cons_append]

/-- The first occurrence is replaced, then the first one behind it, and so on. -/
inductive Replaces (ys zs : List α) : List α → List α → Prop
  | none {xs} (h : ∀ k, ¬ OccursAt xs ys k) : Replaces ys zs xs xs
  | some {xs out} {k : Nat} (h : IsFirst (· < ·) (OccursAt xs ys) k)
      (rest : Replaces ys zs (xs.drop (k + ys.length)) out) :
      Replaces ys zs xs (xs.take k ++ zs ++ out)

theorem replaces_replaceAll {ys : List α} (hys : ys ≠ []) (zs xs : List α) :
    Replaces ys zs xs (replaceAll ys zs 0 xs) := by
  induction hlength : xs.length using Nat.strong_induction_on generalizing xs with
  | _ n ih =>
    have hfirst := first_firstAt xs ys
    cases hfind : firstAt xs ys with
    | none =>
      rw [hfind] at hfirst
      rw [replaceAll_of_none hfirst]
      exact .none hfirst
    | some k =>
      rw [hfind] at hfirst
      rw [replaceAll_of_some hys hfirst]
      refine .some hfirst (ih _ ?_ _ rfl)
      have hpos := List.length_pos_iff.mpr hys
      have hfits := (occursAt_iff.mp hfirst.1).1
      rw [List.length_drop]
      omega

def occurrences (ys : List α) : Nat → List α → Nat
  | _, [] => 0
  | skip + 1, _ :: xs => occurrences ys skip xs
  | 0, x :: xs => if ys <+: x :: xs then occurrences ys (ys.length - 1) xs + 1 else occurrences ys 0 xs

theorem length_splitAll (ys : List α) (skip : Nat) (part xs : List α) :
    (splitAll ys skip part xs).length = occurrences ys skip xs + 1 := by
  induction xs generalizing skip part with
  | nil => cases skip <;> rfl
  | cons x xs ih =>
    cases skip with
    | zero =>
      unfold splitAll occurrences
      split
      case isTrue => rw [List.length_cons, ih]
      case isFalse => exact ih 0 _
    | succ skip => exact ih skip part

theorem splitAll_ne_nil (ys : List α) (skip : Nat) (part xs : List α) :
    splitAll ys skip part xs ≠ [] := by
  induction xs generalizing skip part with
  | nil =>
    cases skip <;> exact List.cons_ne_nil _ _
  | cons x xs ih =>
    cases skip with
    | zero =>
      unfold splitAll
      split
      · exact List.cons_ne_nil _ _
      · exact ih 0 _
    | succ skip => exact ih skip part

omit [DecidableEq α] in
theorem intercalate_cons {sep part : List α} {parts : List (List α)} (h : parts ≠ []) :
    sep.intercalate (part :: parts) = part ++ sep ++ sep.intercalate parts := by
  cases parts with
  | nil => exact absurd rfl h
  | cons next parts => simp [List.intercalate]

omit [DecidableEq α] in
theorem intercalate_singletons (xs : List α) : [].intercalate (xs.map fun x => [x]) = xs := by
  induction xs with
  | nil => rfl
  | cons x xs ih =>
    by_cases hxs : xs.map (fun x => [x]) = []
    · rw [List.map_eq_nil_iff.mp hxs]
      rfl
    · rw [List.map_cons, intercalate_cons hxs, ih]
      rfl

/-- **Replacing is joining what is split**. -/
theorem intercalate_splitAll (ys zs : List α) (skip : Nat) (part xs : List α) :
    zs.intercalate (splitAll ys skip part xs) = part ++ replaceAll ys zs skip xs := by
  induction xs generalizing skip part with
  | nil => cases skip <;> simp [splitAll, replaceAll, List.intercalate]
  | cons x xs ih =>
    cases skip with
    | zero =>
      unfold splitAll replaceAll
      split
      case isTrue =>
        rw [intercalate_cons (splitAll_ne_nil _ _ _ _), ih, List.nil_append, List.append_assoc]
      case isFalse => rw [ih, List.append_assoc, List.singleton_append]
    | succ skip => exact ih skip part

end Lib.Occurrences
