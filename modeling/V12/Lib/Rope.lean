/-
V12.Lib.Rope — texts shared in a table of nodes.

A node is a leaf, the concatenation of two nodes or a window of one; composite
nodes carry their length, below a cap. `Denotes` reads a node's text off the
tree below it, with the height of the tree.
-/
import Mathlib.Data.Fintype.Card
import Mathlib.Logic.Function.Basic

namespace Lib.Rope

/-! ## §1 Tables -/

inductive Node (α : Type*) where
  | leaf (units : List α)
  | cons (left right len : Nat)
  | slice (parent start len : Nat)

def Node.children {α : Type*} : Node α → List Nat
  | .leaf _ => []
  | .cons left right _ => [left, right]
  | .slice parent _ _ => [parent]

variable {α : Type*} {cap : Nat} {t t' : Nat → Option (Node α)}
variable {i n : Nat} {u : List α}

/-- The text of a node, and the height of its tree. -/
inductive Denotes (cap : Nat) (t : Nat → Option (Node α)) : Nat → List α → Nat → Prop where
  | leaf {i : Nat} {u : List α} (hget : t i = some (.leaf u)) : Denotes cap t i u 1
  | cons {i l r len : Nat} {u v : List α} {m n : Nat} (hget : t i = some (.cons l r len))
      (hleft : Denotes cap t l u m) (hright : Denotes cap t r v n)
      (hlen : len = u.length + v.length) (hcap : len < cap) :
      Denotes cap t i (u ++ v) (max m n + 1)
  | slice {i p start len : Nat} {u : List α} {n : Nat} (hget : t i = some (.slice p start len))
      (hparent : Denotes cap t p u n) (hbounds : start + len ≤ u.length) (hcap : u.length < cap) :
      Denotes cap t i ((u.drop start).take len) (n + 1)

theorem Denotes.isSome (h : Denotes cap t i u n) : (t i).isSome := by
  cases h with
  | leaf hget => rw [hget]; rfl
  | cons hget => rw [hget]; rfl
  | slice hget => rw [hget]; rfl

/-! ## §2 One text, one height -/

theorem Denotes.unique {m : Nat} (h : Denotes cap t i u m) :
    ∀ {v : List α} {n : Nat}, Denotes cap t i v n → u = v ∧ m = n := by
  induction h with
  | leaf hget =>
    intro v n h'
    cases h' with
    | leaf hget' =>
      rw [hget] at hget'
      cases hget'
      exact ⟨rfl, rfl⟩
    | cons hget' => rw [hget] at hget'; cases hget'
    | slice hget' => rw [hget] at hget'; cases hget'
  | cons hget _ _ _ _ ihl ihr =>
    intro v n h'
    cases h' with
    | leaf hget' => rw [hget] at hget'; cases hget'
    | cons hget' hleft hright =>
      rw [hget] at hget'
      cases hget'
      obtain ⟨rfl, rfl⟩ := ihl hleft
      obtain ⟨rfl, rfl⟩ := ihr hright
      exact ⟨rfl, rfl⟩
    | slice hget' => rw [hget] at hget'; cases hget'
  | slice hget _ _ _ ih =>
    intro v n h'
    cases h' with
    | leaf hget' => rw [hget] at hget'; cases hget'
    | cons hget' => rw [hget] at hget'; cases hget'
    | slice hget' hparent =>
      rw [hget] at hget'
      cases hget'
      obtain ⟨rfl, rfl⟩ := ih hparent
      exact ⟨rfl, rfl⟩

theorem Denotes.exists_height (h : Denotes cap t i u n) {k : Nat} (hpos : 0 < k) (hk : k ≤ n) :
    ∃ j v, Denotes cap t j v k := by
  induction h with
  | leaf hget =>
    obtain rfl : k = 1 := by omega
    exact ⟨_, _, .leaf hget⟩
  | @cons i l r len u v m n hget hleft hright hlen hcap ihl ihr =>
    by_cases heq : k = max m n + 1
    · subst heq
      exact ⟨i, _, .cons hget hleft hright hlen hcap⟩
    · by_cases hm : k ≤ m
      · exact ihl hm
      · exact ihr (by omega)
  | @slice i p start len u n hget hparent hbounds hcap ih =>
    by_cases heq : k = n + 1
    · subst heq
      exact ⟨i, _, .slice hget hparent hbounds hcap⟩
    · exact ih (by omega)

/-- **Heights are bounded by the size of the table**: nodes of different heights are
different nodes. -/
theorem Denotes.height_le {size : Nat} (hsize : ∀ i, (t i).isSome → i < size)
    (h : Denotes cap t i u n) : n ≤ size := by
  have hat (k : Fin n) : ∃ j v, Denotes cap t j v (k.val + 1) :=
    h.exists_height (Nat.succ_pos _) k.isLt
  choose node text hnode using hat
  have hlt (k : Fin n) : node k < size := hsize _ (hnode k).isSome
  have hinj : Function.Injective fun k => (⟨node k, hlt k⟩ : Fin size) := by
    intro a b hab
    have hsame : node a = node b := Fin.mk.inj_iff.mp hab
    have hheight := ((hnode a).unique (hsame ▸ hnode b)).2
    exact Fin.ext (Nat.succ.inj hheight)
  simpa using Fintype.card_le_of_injective _ hinj

/-! ## §3 Changes of the table -/

/-- **A tree left alone keeps its text**: it lies in a set of nodes closed under naming
on which the tables agree. -/
theorem Denotes.transport {P : Nat → Prop} (hsame : ∀ i, P i → t' i = t i)
    (hclosed : ∀ i node c, P i → t i = some node → c ∈ node.children → P c)
    (h : Denotes cap t i u n) (hi : P i) : Denotes cap t' i u n := by
  induction h with
  | leaf hget => exact .leaf ((hsame _ hi).trans hget)
  | @cons i l r len u v m n hget _ _ hlen hcap ihl ihr =>
    refine .cons ((hsame i hi).trans hget) (ihl ?_) (ihr ?_) hlen hcap
    · exact hclosed i _ l hi hget (by simp [Node.children])
    · exact hclosed i _ r hi hget (by simp [Node.children])
  | @slice i p start len u n hget _ hbounds hcap ih =>
    refine .slice ((hsame i hi).trans hget) (ih ?_) hbounds hcap
    exact hclosed i _ p hi hget (by simp [Node.children])

/-- **Writing a node's text over it changes no text.** -/
theorem Denotes.flatten {k m : Nat} {w : List α} (hk : Denotes cap t k w m)
    (hself : t' k = some (.leaf w)) (hother : ∀ i, i ≠ k → t' i = t i) (h : Denotes cap t i u n) :
    ∃ n', Denotes cap t' i u n' := by
  induction h with
  | @leaf i u hget =>
    by_cases hik : i = k
    · subst hik
      obtain ⟨rfl, -⟩ := hk.unique (.leaf hget)
      exact ⟨1, .leaf hself⟩
    · exact ⟨1, .leaf ((hother i hik).trans hget)⟩
  | @cons i l r len u v m n hget hleft hright hlen hcap ihl ihr =>
    by_cases hik : i = k
    · subst hik
      obtain ⟨rfl, -⟩ := hk.unique (.cons hget hleft hright hlen hcap)
      exact ⟨1, .leaf hself⟩
    · obtain ⟨m', hleft'⟩ := ihl
      obtain ⟨n', hright'⟩ := ihr
      exact ⟨_, .cons ((hother i hik).trans hget) hleft' hright' hlen hcap⟩
  | @slice i p start len u n hget hparent hbounds hcap ih =>
    by_cases hik : i = k
    · subst hik
      obtain ⟨rfl, -⟩ := hk.unique (.slice hget hparent hbounds hcap)
      exact ⟨1, .leaf hself⟩
    · obtain ⟨n', hparent'⟩ := ih
      exact ⟨_, .slice ((hother i hik).trans hget) hparent' hbounds hcap⟩

end Lib.Rope
