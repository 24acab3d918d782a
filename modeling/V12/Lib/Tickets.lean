/-
V12.Lib.Tickets — lists of tickets that are given out in order.

The tickets of the things given out so far are `List.range n`. A list of tickets that is
never longer than `n` and equals it lost nothing and kept the order; the lemmas say
what putting the next ticket somewhere, or leaving tickets out, does to that.
-/
import Mathlib.Data.List.Basic

namespace Lib

theorem insert_eq_range_iff (before after : List Nat) (n : Nat) :
    before ++ n :: after = List.range (n + 1) ↔ before = List.range n ∧ after = [] := by
  rw [List.range_succ]
  constructor
  · intro h
    rcases List.eq_nil_or_concat after with rfl | ⟨init, last, rfl⟩
    · exact ⟨(List.append_inj' h rfl).1, rfl⟩
    · have hconcat : (before ++ n :: init) ++ [last] = List.range n ++ [n] := by simpa using h
      have hinit := (List.append_inj' hconcat rfl).1
      have hmem : n ∈ List.range n := by
        rw [← hinit]
        simp
      exact absurd (List.mem_range.mp hmem) (Nat.lt_irrefl n)
  · rintro ⟨rfl, rfl⟩
    rfl

theorem ne_range_of_length_lt {l : List Nat} {n : Nat} (h : l.length < n) : l ≠ List.range n := by
  intro heq
  rw [heq, List.length_range] at h
  exact Nat.lt_irrefl n h

theorem part_eq_range_iff {part rest whole : List Nat} {n : Nat} (hperm : whole = part ++ rest)
    (hlength : whole.length ≤ n) : part = List.range n ↔ whole = List.range n ∧ rest = [] := by
  subst hperm
  constructor
  · rintro rfl
    have hrest : rest = [] := by
      rw [List.length_append, List.length_range] at hlength
      exact List.eq_nil_of_length_eq_zero (by omega)
    exact ⟨by rw [hrest, List.append_nil], hrest⟩
  · rintro ⟨h, rfl⟩
    simpa using h

end Lib
