/-
V12.Bccompiler.ArgumentsPlan — which function units get an `arguments`
object (`mark_arguments` and `resolve_block_functions` of
`v12-bccompiler/src/collect.rs`).

A unit is a function body in source order, the main unit first; an unbound
reference to `arguments` marks the nearest unit around it that is not an
arrow, unless that is the main unit.
-/
import Mathlib.Tactic.Common

namespace V12.Bccompiler

/-- The parts of a `UnitPlan` that the marking uses. -/
structure ArgumentsUnit where
  parent : Nat
  isArrow : Bool
  /-- The unit's own code has an unbound `arguments` reference. -/
  refersToArguments : Bool
  /-- A sloppy block function of the unit is named `arguments`. -/
  blockFunctionArguments : Bool
  deriving DecidableEq, Repr

/-- The units of a compilation: the main unit is no arrow, and the others come after their
parents. -/
structure UnitTree where
  main : ArgumentsUnit
  functions : List ArgumentsUnit
  main_not_arrow : main.isArrow = false
  parent_le : ∀ (i : Nat) (u : ArgumentsUnit), functions[i]? = some u → u.parent ≤ i

namespace UnitTree

/-- `plans.units[u]`. -/
def unit? (t : UnitTree) : Nat → Option ArgumentsUnit
  | 0 => some t.main
  | u + 1 => t.functions[u]?

def isArrow (t : UnitTree) (u : Nat) : Bool := (t.unit? u).any ArgumentsUnit.isArrow

def parent (t : UnitTree) (u : Nat) : Nat := ((t.unit? u).map ArgumentsUnit.parent).getD 0

theorem parent_lt (t : UnitTree) {u : Nat} (h : t.isArrow u) : t.parent u < u := by
  cases u with
  | zero =>
    have hmain : t.isArrow 0 = t.main.isArrow := rfl
    rw [hmain, t.main_not_arrow] at h
    cases h
  | succ u =>
    cases hu : t.functions[u]? with
    | none => simp [isArrow, unit?, hu] at h
    | some unit =>
      have hle := t.parent_le u unit hu
      simp only [parent, unit?, hu, Option.map_some, Option.getD_some]
      omega

/-- The loop of `mark_arguments`, out of the arrows; each turn goes to an earlier unit. -/
def ownerFrom (t : UnitTree) : Nat → Nat → Nat
  | 0, u => u
  | fuel + 1, u => if t.isArrow u then t.ownerFrom fuel (t.parent u) else u

def ownerOf (t : UnitTree) (u : Nat) : Nat := t.ownerFrom u u

def refers (t : UnitTree) (u : Nat) : Bool :=
  (t.unit? u).any ArgumentsUnit.refersToArguments

/-- `needs_arguments`: the unit owns a reference, or a block function is named so. -/
def needsArguments (t : UnitTree) (u : Nat) : Bool :=
  u != 0 &&
    ((t.unit? u).any ArgumentsUnit.blockFunctionArguments ||
      (List.range (t.functions.length + 1)).any fun w => t.refers w && t.ownerOf w == u)

-- The equations are made here, ahead of the proofs below that all ask for them.
attribute [local simp] ownerFrom

theorem ownerFrom_eq (t : UnitTree) {u fuel : Nat} (h : u ≤ fuel) :
    t.ownerFrom fuel u = t.ownerOf u := by
  induction fuel using Nat.strongRecOn generalizing u with
  | ind fuel ih =>
    cases fuel with
    | zero =>
      have hu : u = 0 := by omega
      rw [hu, ownerOf]
    | succ fuel =>
      cases u with
      | zero =>
        have hmain : t.isArrow 0 = false := t.main_not_arrow
        simp [ownerOf, ownerFrom, hmain]
      | succ u =>
        rw [ownerOf, ownerFrom, ownerFrom]
        split
        · rename_i harrow
          have hlt := t.parent_lt harrow
          rw [ih fuel (by omega) (by omega), ih u (by omega) (by omega)]
        · rfl

theorem ownerOf_of_isArrow (t : UnitTree) {u : Nat} (h : t.isArrow u) :
    t.ownerOf u = t.ownerOf (t.parent u) := by
  have hlt := t.parent_lt h
  rw [← t.ownerFrom_eq (Nat.le_succ u), ownerFrom, if_pos h, t.ownerFrom_eq (by omega)]

theorem ownerOf_of_not_isArrow (t : UnitTree) {u : Nat} (h : t.isArrow u = false) :
    t.ownerOf u = u := by
  rw [← t.ownerFrom_eq (Nat.le_succ u), ownerFrom, if_neg (by simp [h])]

theorem lt_of_refers (t : UnitTree) {u : Nat} (h : t.refers u) : u < t.functions.length + 1 := by
  cases u with
  | zero => omega
  | succ u =>
    cases hu : t.functions[u]? with
    | none => simp [refers, unit?, hu] at h
    | some unit =>
      have hlt := (List.getElem?_eq_some_iff.mp hu).1
      omega

theorem needsArguments_ownerOf (t : UnitTree) {u : Nat} (h : t.refers u)
    (hmain : t.ownerOf u ≠ 0) : t.needsArguments (t.ownerOf u) := by
  have hmem : u ∈ List.range (t.functions.length + 1) := List.mem_range.mpr (t.lt_of_refers h)
  have hany : ((List.range (t.functions.length + 1)).any
      fun w => t.refers w && t.ownerOf w == t.ownerOf u) = true :=
    List.any_eq_true.mpr ⟨u, hmem, by simp [h]⟩
  simp [needsArguments, hmain, hany]

end UnitTree

end V12.Bccompiler
