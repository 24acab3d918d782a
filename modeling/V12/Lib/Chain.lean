/-
V12.Lib.Chain — chains of parent links.

Each node names at most one parent; the chain of a node is the node, its
parent, that one's parent and so on. `Acyclic` says that no node is above
itself. Over finitely many linked nodes this is the same as every walk up
a chain coming to an end, within as many steps as there are nodes.
Rewiring one node keeps a graph acyclic exactly when the node is not on
the chain of its new parent.
-/
import Mathlib.Logic.Relation
import Mathlib.Logic.Function.Basic
import Mathlib.Data.Finset.Card

namespace Lib.Chain

variable {α : Type*} (parent : α → Option α)

/-! ## §1 Chains -/

/-- `b` is the parent of `a`. -/
def Up (a b : α) : Prop := parent a = some b

/-- `b` is on the chain that starts at `start`. -/
def Meets (start : Option α) (b : α) : Prop :=
  ∃ a, start = some a ∧ Relation.ReflTransGen (Up parent) a b

def Acyclic : Prop := ∀ a, ¬ Relation.TransGen (Up parent) a a

/-- The chain of `a` comes to an end. -/
def Ends (a : α) : Prop := Acc (fun b a => Up parent a b) a

@[simp] theorem not_meets_none (b : α) : ¬ Meets parent none b := by simp [Meets]

@[simp] theorem meets_some {a b : α} :
    Meets parent (some a) b ↔ Relation.ReflTransGen (Up parent) a b := by simp [Meets]

/-- Walks up from `start` until `hit` holds, over at most `fuel` nodes:
`none` when the fuel runs out, `some none` when the chain ends first. -/
def walk (hit : α → Bool) : Nat → Option α → Option (Option α)
  | _, none => some none
  | 0, some _ => none
  | fuel + 1, some a => if hit a then some (some a) else walk hit fuel (parent a)

variable {parent} {hit : α → Bool}

theorem meets_of_walk {b : α} : ∀ {fuel : Nat} {start : Option α},
    walk parent hit fuel start = some (some b) → Meets parent start b ∧ hit b = true := by
  intro fuel
  induction fuel with
  | zero => intro start h; cases start <;> simp [walk] at h
  | succ fuel ih =>
    intro start h
    cases start with
    | none => simp [walk] at h
    | some a =>
      simp only [walk] at h
      split at h
      · next hhit =>
        obtain rfl : a = b := by simpa using h
        exact ⟨(meets_some parent).2 .refl, hhit⟩
      · obtain ⟨⟨c, hc, hcb⟩, hb⟩ := ih h
        exact ⟨(meets_some parent).2 (.head hc hcb), hb⟩

theorem not_hit_of_walk {b : α} : ∀ {fuel : Nat} {start : Option α},
    walk parent hit fuel start = some none → Meets parent start b → hit b = false := by
  intro fuel
  induction fuel with
  | zero =>
    intro start h hb
    cases start with
    | none => exact absurd hb (not_meets_none parent b)
    | some a => simp [walk] at h
  | succ fuel ih =>
    intro start h hb
    cases start with
    | none => exact absurd hb (not_meets_none parent b)
    | some a =>
      simp only [walk] at h
      split at h
      · simp at h
      · next hhit =>
        rcases Relation.ReflTransGen.cases_head ((meets_some parent).1 hb) with rfl | ⟨c, hac, hcb⟩
        · simpa using hhit
        · exact ih h ⟨c, hac, hcb⟩

theorem ends_of_walk : ∀ {fuel : Nat} {a : α},
    (walk parent (fun _ => false) fuel (some a)).isSome → Ends parent a := by
  intro fuel
  induction fuel with
  | zero => intro a h; simp [walk] at h
  | succ fuel ih =>
    intro a h
    refine .intro a ?_
    intro b hab
    apply ih
    simpa [walk, show parent a = some b from hab] using h

theorem Ends.not_above {a : α} (ha : Ends parent a) : ¬ Relation.TransGen (Up parent) a a := by
  induction ha with
  | intro a _ ih =>
    intro hcycle
    obtain ⟨b, hab, hba⟩ := Relation.TransGen.head'_iff.1 hcycle
    exact ih b hab (.tail' hba hab)

theorem acyclic_of_ends (h : ∀ a, Ends parent a) : Acyclic parent :=
  fun a => (h a).not_above

/-! ## §2 Finitely many linked nodes -/

section Finite

variable {nodes : Finset α} (hnodes : ∀ a b, parent a = some b → b ∈ nodes)
include hnodes

theorem walk_isSome_of_card : ∀ {fuel : Nat} {a : α} (above : Finset α),
    (∀ b, Relation.ReflTransGen (Up parent) a b → ¬ Relation.TransGen (Up parent) b b) →
    a ∈ above → (∀ b, Relation.ReflTransGen (Up parent) a b → b ∈ nodes → b ∈ above) →
    (∀ b ∈ above, Relation.ReflTransGen (Up parent) a b) → above.card ≤ fuel →
    (walk parent hit fuel (some a)).isSome := by
  classical
  intro fuel
  induction fuel with
  | zero =>
    intro a above _ ha _ _ hcard
    simp only [Nat.le_zero, Finset.card_eq_zero] at hcard
    simp [hcard] at ha
  | succ fuel ih =>
    intro a above hac ha hin hout hcard
    simp only [walk]
    split
    · rfl
    · cases hp : parent a with
      | none => cases fuel <;> rfl
      | some b =>
        have hab : Up parent a b := hp
        -- the node itself is not above its parent
        apply ih (above.filter fun c => Relation.ReflTransGen (Up parent) b c)
        · intro c hbc
          exact hac c (.head hab hbc)
        · exact Finset.mem_filter.2 ⟨hin b (.single hab) (hnodes a b hp), .refl⟩
        · intro c hbc hc
          exact Finset.mem_filter.2 ⟨hin c (.head hab hbc) hc, hbc⟩
        · intro c hc
          exact (Finset.mem_filter.1 hc).2
        · have hlt : (above.filter fun c => Relation.ReflTransGen (Up parent) b c) ⊂ above := by
            refine Finset.filter_ssubset.2 ⟨a, ha, ?_⟩
            intro hba
            exact hac a .refl (.head' hab hba)
          have := Finset.card_lt_card hlt
          omega

theorem walk_isSome_of_not_above {a : α} (ha : a ∈ nodes)
    (hac : ∀ b, Relation.ReflTransGen (Up parent) a b → ¬ Relation.TransGen (Up parent) b b) :
    (walk parent hit nodes.card (some a)).isSome := by
  classical
  apply walk_isSome_of_card hnodes
    (nodes.filter fun b => Relation.ReflTransGen (Up parent) a b) hac
  · exact Finset.mem_filter.2 ⟨ha, .refl⟩
  · intro b hab hb
    exact Finset.mem_filter.2 ⟨hb, hab⟩
  · intro b hb
    exact (Finset.mem_filter.1 hb).2
  · exact Finset.card_filter_le _ _

/-- **Walks end.** In an acyclic graph every walk from a node comes back
within as many steps as there are nodes. -/
theorem walk_isSome (hac : Acyclic parent) {a : α} (ha : a ∈ nodes) :
    (walk parent hit nodes.card (some a)).isSome :=
  walk_isSome_of_not_above hnodes ha fun b _ => hac b

theorem ends_of_acyclic (hac : Acyclic parent) (a : α) : Ends parent a := by
  refine .intro a ?_
  intro b hab
  exact ends_of_walk (walk_isSome hnodes hac (hnodes a b hab))

end Finite

/-! ## §3 Rewiring one node -/

section Update

variable [DecidableEq α] {a : α} {q : Option α}

theorem reaches_update {x : α} (h : Relation.ReflTransGen (Up parent) x a) :
    Relation.ReflTransGen (Up (Function.update parent a q)) x a := by
  induction h using Relation.ReflTransGen.head_induction_on with
  | refl => exact .refl
  | @head x y hxy _ ih =>
    by_cases hxa : x = a
    · rw [hxa]
    · refine .head ?_ ih
      simpa [Up, Function.update_of_ne hxa] using hxy

theorem ends_update_of_not_reaches {x : α} (hx : Ends parent x)
    (h : ¬ Relation.ReflTransGen (Up parent) x a) : Ends (Function.update parent a q) x := by
  induction hx with
  | intro x _ ih =>
    have hxa : x ≠ a := by
      intro e
      exact h (e ▸ .refl)
    refine .intro x ?_
    intro y hxy
    have hold : Up parent x y := by simpa [Up, Function.update_of_ne hxa] using hxy
    exact ih y hold (fun hya => h (.head hold hya))

theorem ends_update (hends : ∀ x, Ends parent x) (h : ¬ Meets parent q a) (x : α) :
    Ends (Function.update parent a q) x := by
  have ha : Ends (Function.update parent a q) a := by
    refine .intro a ?_
    intro p hp
    have hq : q = some p := by simpa [Up] using hp
    refine ends_update_of_not_reaches (hends p) ?_
    simpa [hq] using h
  induction hends x with
  | intro x _ ih =>
    by_cases hxa : x = a
    · exact hxa ▸ ha
    · refine .intro x ?_
      intro y hxy
      exact ih y (by simpa [Up, Function.update_of_ne hxa] using hxy)

/-- **Rewiring.** Of finitely many nodes with no cycle, giving `a` the
parent `q` keeps the graph acyclic exactly when `a` is not on the chain
of `q`. -/
theorem acyclic_update_iff {nodes : Finset α} (hnodes : ∀ a b, parent a = some b → b ∈ nodes)
    (hac : Acyclic parent) :
    Acyclic (Function.update parent a q) ↔ ¬ Meets parent q a := by
  constructor
  · intro hnew hmeets
    obtain ⟨p, rfl, hpa⟩ := hmeets
    refine hnew a (.head' ?_ (reaches_update hpa))
    simp [Up]
  · intro h
    exact acyclic_of_ends (ends_update (ends_of_acyclic hnodes hac) h)

end Update

end Lib.Chain
