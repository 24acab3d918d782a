/-
V12.Lib.Assoc — looking up after a change of an association list.

A list of pairs read by its first match: what removing a key, or changing
the value under one, does to every lookup.
-/
import Mathlib.Data.List.Basic

namespace Lib

variable {κ α : Type*} [BEq κ] [LawfulBEq κ] [DecidableEq κ]

theorem lookup_filter_ne (key k : κ) (entries : List (κ × α)) :
    (entries.filter fun e => e.1 ≠ key).lookup k = if k = key then none else entries.lookup k := by
  induction entries with
  | nil => simp
  | cons e es ih =>
    obtain ⟨a, b⟩ := e
    by_cases ha : a = key
    · rw [List.filter_cons_of_neg (by simp [ha]), ih]
      by_cases hk : k = key
      · rw [if_pos hk, if_pos hk]
      · have hne : (k == a) = false := by simp [ha, hk]
        rw [if_neg hk, if_neg hk, List.lookup_cons, hne]
    · rw [List.filter_cons_of_pos (by simp [ha]), List.lookup_cons, List.lookup_cons]
      by_cases hka : k = a
      · subst hka
        simp [ha]
      · have hne : (k == a) = false := by simp [hka]
        rw [hne, ih]

theorem lookup_map_update (key k : κ) (f : α → α) (entries : List (κ × α)) :
    (entries.map fun e => if e.1 = key then (e.1, f e.2) else e).lookup k =
      if k = key then (entries.lookup k).map f else entries.lookup k := by
  induction entries with
  | nil => simp
  | cons e es ih =>
    obtain ⟨a, b⟩ := e
    have hhead : (if a = key then (a, f b) else (a, b)) = (a, if a = key then f b else b) := by
      split <;> rfl
    simp only [List.map_cons, hhead, List.lookup_cons]
    by_cases hka : k = a
    · subst hka
      by_cases hk : k = key
      · simp [hk]
      · simp [hk]
    · have hne : (k == a) = false := by simp [hka]
      rw [hne]
      exact ih

omit [DecidableEq κ] in
theorem mem_of_lookup {k : κ} {v : α} {entries : List (κ × α)} (h : entries.lookup k = some v) :
    (k, v) ∈ entries := by
  obtain ⟨before, after, heq, -⟩ := List.lookup_eq_some_iff.mp h
  rw [heq]
  simp

end Lib
