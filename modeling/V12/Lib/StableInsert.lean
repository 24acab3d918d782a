/-
V12.Lib.StableInsert — insertion into a sorted list behind all that is not
greater.

`le` need only be a total preorder on the values at hand. A value that goes in
at the first place whose entry is greater keeps the list sorted
(`pairwise_insertIdx`), and comes after its equals (`filter_insertIdx`).
-/
import Mathlib.Data.List.Basic

namespace Lib

variable {α : Type*}

/-- A total preorder on the values of `S`. -/
structure PreorderOn (S : α → Prop) (le : α → α → Bool) : Prop where
  total : ∀ a b, S a → S b → le a b = true ∨ le b a = true
  trans : ∀ a b c, S a → S b → S c → le a b = true → le b c = true → le a c = true

def tied (le : α → α → Bool) (a b : α) : Bool := le a b && le b a

/-- The place for `v`: behind every entry that is not greater, before every other one. -/
structure IsPlace (le : α → α → Bool) (l : List α) (v : α) (n : Nat) : Prop where
  le_length : n ≤ l.length
  before : ∀ i (h : i < l.length), i < n → le l[i] v = true
  after : ∀ i (h : i < l.length), n ≤ i → le l[i] v = false

section

variable {S : α → Prop} {le : α → α → Bool} {l : List α} {v : α} {n : Nat}

theorem insertIdx_eq_take_drop (h : n ≤ l.length) : l.insertIdx n v = l.take n ++ v :: l.drop n := by
  induction l generalizing n with
  | nil =>
    obtain rfl := Nat.le_zero.mp h
    rfl
  | cons a l ih =>
    cases n with
    | zero => rfl
    | succ n =>
      rw [List.insertIdx_succ_cons, ih (Nat.le_of_succ_le_succ h)]
      rfl

theorem IsPlace.of_mem_take (h : IsPlace le l v n) {x : α} (hx : x ∈ l.take n) : le x v = true := by
  obtain ⟨i, hi, rfl⟩ := List.getElem_of_mem hx
  rw [List.length_take] at hi
  rw [List.getElem_take]
  exact h.before i (by omega) (by omega)

theorem IsPlace.of_mem_drop (h : IsPlace le l v n) {x : α} (hx : x ∈ l.drop n) : le x v = false := by
  obtain ⟨i, hi, rfl⟩ := List.getElem_of_mem hx
  rw [List.length_drop] at hi
  rw [List.getElem_drop]
  exact h.after (n + i) (by omega) (by omega)

variable (hle : PreorderOn S le) (hl : ∀ x ∈ l, S x) (hv : S v) (h : IsPlace le l v n)

include hle hl hv h

theorem pairwise_insertIdx (hsorted : l.Pairwise fun a b => le a b = true) :
    (l.insertIdx n v).Pairwise fun a b => le a b = true := by
  have hparts : (l.take n ++ l.drop n).Pairwise fun a b => le a b = true := by
    rw [List.take_append_drop]
    exact hsorted
  obtain ⟨htake, hdrop, hcross⟩ := List.pairwise_append.mp hparts
  rw [insertIdx_eq_take_drop h.le_length]
  refine List.pairwise_append.mpr ⟨htake, List.pairwise_cons.mpr ⟨?_, hdrop⟩, ?_⟩
  · intro y hy
    have hnot := h.of_mem_drop hy
    exact (hle.total v y hv (hl y (List.mem_of_mem_drop hy))).resolve_right (by rw [hnot]; simp)
  · intro x hx y hy
    rcases List.mem_cons.mp hy with rfl | hy
    · exact h.of_mem_take hx
    · exact hcross x hx y hy

theorem filter_insertIdx {a : α} (ha : S a) : (l.insertIdx n v).filter (tied le a) =
    (l ++ [v]).filter (tied le a) := by
  have hparts : (l.take n).filter (tied le a) ++ (l.drop n).filter (tied le a) =
      l.filter (tied le a) := by
    rw [← List.filter_append, List.take_append_drop]
  rw [insertIdx_eq_take_drop h.le_length, List.filter_append, List.filter_append, ← hparts,
    List.filter_cons]
  cases htied : tied le a v with
  | false => simp [htied]
  | true =>
    -- an equal of `a` behind the place would not be greater than `v`
    have hdrop : (l.drop n).filter (tied le a) = [] := by
      refine List.filter_eq_nil_iff.mpr fun y hy hya => ?_
      have hy' := hl y (List.mem_of_mem_drop hy)
      simp only [tied, Bool.and_eq_true] at htied hya
      have hyv := hle.trans y a v hy' ha hv hya.2 htied.1
      rw [h.of_mem_drop hy] at hyv
      exact absurd hyv (by simp)
    simp [hdrop, htied]

end

/-- A search between two bounds can go on in either half. -/
structure IsBetween (le : α → α → Bool) (l : List α) (v : α) (lo hi : Nat) : Prop where
  le_length : hi ≤ l.length
  before : ∀ i (h : i < l.length), i < lo → le l[i] v = true
  after : ∀ i (h : i < l.length), hi ≤ i → le l[i] v = false

section

variable {S : α → Prop} {le : α → α → Bool} {l : List α} {v : α} {lo hi mid : Nat}

theorem isBetween_all (le : α → α → Bool) (l : List α) (v : α) : IsBetween le l v 0 l.length :=
  ⟨Nat.le_refl _, fun i _ hi => absurd hi (Nat.not_lt_zero i), fun i h hi => absurd h (by omega)⟩

theorem IsBetween.place (h : IsBetween le l v lo hi) (hlohi : lo ≤ hi) (hge : ¬ lo < hi) :
    IsPlace le l v lo := by
  obtain rfl : lo = hi := by omega
  exact ⟨h.le_length, h.before, h.after⟩

variable (hle : PreorderOn S le) (hl : ∀ x ∈ l, S x) (hv : S v)
  (hsorted : l.Pairwise fun a b => le a b = true) (h : IsBetween le l v lo hi) (hmid : mid < l.length)

include hle hl hv hsorted h

theorem IsBetween.upper (htest : le l[mid] v = true) : IsBetween le l v (mid + 1) hi where
  le_length := h.le_length
  before := by
    intro i hi' hlt
    rcases Nat.lt_or_eq_of_le (Nat.le_of_lt_succ hlt) with hlt | rfl
    · have hpair := List.pairwise_iff_getElem.mp hsorted i mid hi' hmid hlt
      exact hle.trans _ _ _ (hl _ (List.getElem_mem hi')) (hl _ (List.getElem_mem hmid)) hv hpair htest
    · exact htest
  after := h.after

theorem IsBetween.lower (htest : le l[mid] v = false) : IsBetween le l v lo mid where
  le_length := Nat.le_of_lt hmid
  before := h.before
  after := by
    intro i hi' hge
    rcases Nat.lt_or_eq_of_le hge with hlt | rfl
    · have hpair := List.pairwise_iff_getElem.mp hsorted mid i hmid hi' hlt
      refine Bool.eq_false_iff.mpr fun htrue => ?_
      have hmidv := hle.trans _ _ _ (hl _ (List.getElem_mem hmid)) (hl _ (List.getElem_mem hi')) hv
        hpair htrue
      rw [htest] at hmidv
      exact absurd hmidv (by simp)
    · exact htest

end

end Lib
