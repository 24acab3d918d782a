/-
V12.Lib.InsertionMap — finite maps in the order of insertion.

A map lists its live entries, each with the time of its insertion; no two
entries have keys that `same` takes for one (§1). A cursor goes to the first
live entry from a time on. A vector of slots, where a removed entry leaves its
slot empty, denotes the map of its full slots: the time of an entry is its
index (§2). Each operation on the slots is the one on the map (§3).
-/
import Mathlib.Data.List.Basic

namespace Lib

variable {κ α : Type*}

/-! ## §1 Maps -/

/-- A live entry. -/
structure Entry (κ α : Type*) where
  stamp : Nat
  key : κ
  value : α
  deriving DecidableEq

def overwrite (test : κ → Bool) (a : α) : List (Entry κ α) → List (Entry κ α)
  | [] => []
  | e :: es => if test e.key then { e with value := a } :: es else e :: overwrite test a es

theorem mem_overwrite {test : κ → Bool} {a : α} {es : List (Entry κ α)} {e : Entry κ α}
    (h : e ∈ overwrite test a es) : ∃ e' ∈ es, e'.stamp = e.stamp ∧ e'.key = e.key := by
  induction es with
  | nil => cases h
  | cons e' es ih =>
    unfold overwrite at h
    split at h
    · rcases List.mem_cons.mp h with rfl | hmem
      · exact ⟨e', .head es, rfl, rfl⟩
      · exact ⟨e, .tail e' hmem, rfl, rfl⟩
    · rcases List.mem_cons.mp h with rfl | hmem
      · exact ⟨e, .head es, rfl, rfl⟩
      · obtain ⟨e'', hmem', heq⟩ := ih hmem
        exact ⟨e'', .tail e' hmem', heq⟩

theorem pairwise_overwrite {R : Nat → κ → Nat → κ → Prop} (test : κ → Bool) (a : α)
    {es : List (Entry κ α)} (h : es.Pairwise fun e e' => R e.stamp e.key e'.stamp e'.key) :
    (overwrite test a es).Pairwise fun e e' => R e.stamp e.key e'.stamp e'.key := by
  induction es with
  | nil => exact List.Pairwise.nil
  | cons e es ih =>
    obtain ⟨hfirst, hrest⟩ := List.pairwise_cons.mp h
    unfold overwrite
    split
    · exact List.pairwise_cons.mpr ⟨hfirst, hrest⟩
    · refine List.pairwise_cons.mpr ⟨fun e' he' => ?_, ih hrest⟩
      obtain ⟨e'', hmem, hstamp, hkey⟩ := mem_overwrite he'
      rw [← hstamp, ← hkey]
      exact hfirst e'' hmem

/-- A finite map in the order of insertion. -/
structure InsertionMap (same : κ → κ → Bool) (α : Type*) where
  entries : List (Entry κ α)
  /-- The time of the next insertion. -/
  clock : Nat
  ordered : entries.Pairwise fun e e' => e.stamp < e'.stamp
  below : ∀ e ∈ entries, e.stamp < clock
  apart : entries.Pairwise fun e e' => same e.key e'.key = false

namespace InsertionMap

variable {same : κ → κ → Bool}

def empty : InsertionMap same α := ⟨[], 0, .nil, by simp, .nil⟩

def find? (m : InsertionMap same α) (k : κ) : Option (Entry κ α) :=
  m.entries.find? fun e => same e.key k

def has (m : InsertionMap same α) (k : κ) : Bool := m.entries.any fun e => same e.key k

def size (m : InsertionMap same α) : Nat := m.entries.length

def next? (m : InsertionMap same α) (time : Nat) : Option (Entry κ α) :=
  m.entries.find? fun e => time ≤ e.stamp

/-- A new value: in its place where the key is there, else in a new entry at the end. -/
def put (m : InsertionMap same α) (k : κ) (a : α) : InsertionMap same α :=
  if h : m.has k then
    { entries := overwrite (same · k) a m.entries
      clock := m.clock
      ordered := pairwise_overwrite (R := fun s _ s' _ => s < s') _ a m.ordered
      below := by
        intro e he
        obtain ⟨e', hmem, hstamp, -⟩ := mem_overwrite he
        exact hstamp ▸ m.below e' hmem
      apart := pairwise_overwrite (R := fun _ k _ k' => same k k' = false) _ a m.apart }
  else
    { entries := m.entries ++ [⟨m.clock, k, a⟩]
      clock := m.clock + 1
      ordered := by
        refine List.pairwise_append.mpr ⟨m.ordered, List.pairwise_singleton _ _, ?_⟩
        intro e he e' he'
        rw [List.mem_singleton.mp he']
        exact m.below e he
      below := by
        intro e he
        rcases List.mem_append.mp he with hmem | hmem
        · exact Nat.lt_succ_of_lt (m.below e hmem)
        · rw [List.mem_singleton.mp hmem]
          exact Nat.lt_succ_self m.clock
      apart := by
        refine List.pairwise_append.mpr ⟨m.apart, List.pairwise_singleton _ _, ?_⟩
        intro e he e' he'
        rw [List.mem_singleton.mp he']
        have hnone := fun hsame => h (List.any_eq_true.mpr ⟨e, he, hsame⟩)
        exact Bool.eq_false_iff.mpr hnone }

def delete (m : InsertionMap same α) (k : κ) : InsertionMap same α where
  entries := m.entries.eraseP fun e => same e.key k
  clock := m.clock
  ordered := m.ordered.sublist (List.eraseP_sublist)
  below := fun e he => m.below e (List.mem_of_mem_eraseP he)
  apart := m.apart.sublist (List.eraseP_sublist)

def clear (m : InsertionMap same α) : InsertionMap same α := ⟨[], m.clock, .nil, by simp, .nil⟩

/-! ## §2 Slots -/

end InsertionMap

abbrev Slot (κ α : Type*) := Option (κ × α)

/-- The entries of the slots from index `n` on. -/
def live (n : Nat) : List (Slot κ α) → List (Entry κ α)
  | [] => []
  | none :: slots => live (n + 1) slots
  | some (k, a) :: slots => ⟨n, k, a⟩ :: live (n + 1) slots

variable {slots : List (Slot κ α)} {same : κ → κ → Bool} {m : InsertionMap same α}

theorem stamp_of_mem_live {n : Nat} {e : Entry κ α} (h : e ∈ live n slots) :
    n ≤ e.stamp ∧ e.stamp < n + slots.length := by
  induction slots generalizing n with
  | nil => cases h
  | cons slot slots ih =>
    rw [List.length_cons]
    cases slot with
    | none =>
      have := ih h
      omega
    | some p =>
      obtain ⟨k, a⟩ := p
      rcases List.mem_cons.mp h with rfl | hmem
      · exact ⟨Nat.le_refl n, Nat.lt_add_of_pos_right (Nat.succ_pos _)⟩
      · have := ih hmem
        omega

theorem getElem?_of_mem_live {n : Nat} {e : Entry κ α} (h : e ∈ live n slots) :
    slots[e.stamp - n]? = some (some (e.key, e.value)) := by
  induction slots generalizing n with
  | nil => cases h
  | cons slot slots ih =>
    have hrest (hmem : e ∈ live (n + 1) slots) :
        (slot :: slots)[e.stamp - n]? = some (some (e.key, e.value)) := by
      have hlt := (stamp_of_mem_live hmem).1
      rw [show e.stamp - n = (e.stamp - (n + 1)) + 1 by omega, List.getElem?_cons_succ]
      exact ih hmem
    cases slot with
    | none => exact hrest h
    | some p =>
      obtain ⟨k, a⟩ := p
      rcases List.mem_cons.mp h with rfl | hmem
      · simp
      · exact hrest hmem

/-- The slots denote the map. -/
structure Depicts {same : κ → κ → Bool} (slots : List (Slot κ α)) (m : InsertionMap same α) :
    Prop where
  entries : live 0 slots = m.entries
  clock : slots.length = m.clock

/-! ## §3 Operations on slots -/

/-- The value of the first slot whose key passes the test is replaced; else a slot is added. -/
def putSlot (test : κ → Bool) (k : κ) (a : α) : List (Slot κ α) → List (Slot κ α)
  | [] => [some (k, a)]
  | none :: slots => none :: putSlot test k a slots
  | some (k', b) :: slots =>
    if test k' then some (k', a) :: slots else some (k', b) :: putSlot test k a slots

def emptySlot (test : κ → Bool) : List (Slot κ α) → List (Slot κ α)
  | [] => []
  | none :: slots => none :: emptySlot test slots
  | some (k, a) :: slots => if test k then none :: slots else some (k, a) :: emptySlot test slots

/-- The first full slot from index `i` on, among so many. -/
def advance (isEmpty : Nat → Bool) : Nat → Nat → Option Nat
  | 0, _ => none
  | remaining + 1, i => if isEmpty i then advance isEmpty remaining (i + 1) else some i

theorem advance_eq_some {isEmpty : Nat → Bool} {remaining i j : Nat}
    (h : advance isEmpty remaining i = some j) : i ≤ j ∧ j < i + remaining ∧ isEmpty j = false ∧
      ∀ l, i ≤ l → l < j → isEmpty l = true := by
  induction remaining generalizing i with
  | zero => cases h
  | succ remaining ih =>
    rw [advance] at h
    cases hempty : isEmpty i with
    | false =>
      rw [hempty, if_neg Bool.false_ne_true] at h
      obtain rfl := Option.some.inj h
      exact ⟨Nat.le_refl i, by omega, hempty, fun l hle hlt => absurd hle (by omega)⟩
    | true =>
      rw [hempty, if_pos rfl] at h
      obtain ⟨hle, hlt, hfull, hbefore⟩ := ih h
      refine ⟨by omega, by omega, hfull, fun l hl hlj => ?_⟩
      rcases Nat.eq_or_lt_of_le hl with rfl | hgt
      · exact hempty
      · exact hbefore l hgt hlj

theorem live_putSlot (test : κ → Bool) (k : κ) (a : α) (n : Nat) (slots : List (Slot κ α)) :
    live n (putSlot test k a slots) = (if (live n slots).any fun e => test e.key then
      overwrite test a (live n slots) else live n slots ++ [⟨n + slots.length, k, a⟩]) ∧
    (putSlot test k a slots).length = (if (live n slots).any fun e => test e.key then
      slots.length else slots.length + 1) := by
  induction slots generalizing n with
  | nil => simp [putSlot, live]
  | cons slot slots ih =>
    obtain ⟨hlive, hlength⟩ := ih (n + 1)
    have hindex : n + (slot :: slots).length = n + 1 + slots.length := by
      rw [List.length_cons]
      omega
    rw [hindex, List.length_cons]
    cases slot with
    | none =>
      simp only [putSlot, live, List.length_cons]
      refine ⟨hlive, ?_⟩
      rw [hlength]
      exact apply_ite (· + 1) _ _ _
    | some p =>
      obtain ⟨k', b⟩ := p
      by_cases htest : test k' = true
      · simp [putSlot, live, overwrite, htest]
      · simp only [putSlot, live, overwrite, htest, List.length_cons, List.any_cons, Bool.false_or,
          if_false, Bool.false_eq_true, hlive, hlength]
        exact ⟨apply_ite (List.cons (Entry.mk n k' b)) _ _ _, apply_ite (· + 1) _ _ _⟩

theorem live_emptySlot (test : κ → Bool) (n : Nat) (slots : List (Slot κ α)) :
    live n (emptySlot test slots) = (live n slots).eraseP fun e => test e.key := by
  induction slots generalizing n with
  | nil => rfl
  | cons slot slots ih =>
    cases slot with
    | none => exact ih (n + 1)
    | some p =>
      obtain ⟨k, a⟩ := p
      by_cases htest : test k = true
      · simp [emptySlot, live, htest]
      · simp [emptySlot, live, htest, ih (n + 1)]

theorem length_emptySlot (test : κ → Bool) (slots : List (Slot κ α)) :
    (emptySlot test slots).length = slots.length := by
  induction slots with
  | nil => rfl
  | cons slot slots ih =>
    cases slot with
    | none => simp [emptySlot, ih]
    | some p =>
      obtain ⟨k, a⟩ := p
      unfold emptySlot
      split
      · rfl
      · simp [ih]

theorem live_replicate (n count : Nat) :
    live n (List.replicate count (none : Slot κ α)) = [] := by
  induction count generalizing n with
  | zero => rfl
  | succ count ih => exact ih (n + 1)

theorem Depicts.put (h : Depicts slots m) (k : κ) (a : α) :
    Depicts (putSlot (same · k) k a slots) (m.put k a) := by
  obtain ⟨hlive, hlength⟩ := live_putSlot (same · k) k a 0 slots
  rw [h.entries, ← InsertionMap.has] at hlive hlength
  unfold InsertionMap.put
  split
  · next hhas =>
    rw [if_pos hhas] at hlive hlength
    exact ⟨hlive, hlength.trans h.clock⟩
  · next hhas =>
    rw [if_neg hhas] at hlive hlength
    rw [h.clock, Nat.zero_add] at hlive
    exact ⟨hlive, hlength.trans (congrArg (· + 1) h.clock)⟩

theorem Depicts.delete (h : Depicts slots m) (k : κ) :
    Depicts (emptySlot (same · k) slots) (m.delete k) where
  entries := by
    rw [live_emptySlot, h.entries]
    rfl
  clock := (length_emptySlot _ slots).trans h.clock

theorem Depicts.clear (h : Depicts slots m) :
    Depicts (List.replicate slots.length none) m.clear where
  entries := live_replicate 0 slots.length
  clock := List.length_replicate.trans h.clock

theorem find?_live (n i : Nat) (slots : List (Slot κ α)) :
    ((live n slots).find? fun e => n + i ≤ e.stamp) = (live (n + i) (slots.drop i)).head? := by
  induction slots generalizing n i with
  | nil => simp [live]
  | cons slot slots ih =>
    cases i with
    | zero =>
      cases slot with
      | none =>
        have hall : ((live (n + 1) slots).find? fun e => n + 0 ≤ e.stamp) =
            (live (n + 1) slots).head? := by
          cases hlive : live (n + 1) slots with
          | nil => rfl
          | cons e es =>
            have hmem : e ∈ live (n + 1) slots := by simp [hlive]
            have hstamp := (stamp_of_mem_live hmem).1
            rw [List.find?_cons_of_pos (by simp; omega), List.head?_cons]
        exact hall
      | some p =>
        obtain ⟨k, a⟩ := p
        simp [live]
    | succ i =>
      have hrest := ih (n + 1) i
      rw [show n + 1 + i = n + (i + 1) by omega] at hrest
      cases slot with
      | none => exact hrest
      | some p =>
        obtain ⟨k, a⟩ := p
        rw [live, List.find?_cons_of_neg (by simp), hrest, List.drop_succ_cons]

theorem advance_eq {isEmpty : Nat → Bool}
    (hempty : ∀ i (h : i < slots.length), isEmpty i = (slots[i]).isNone) (remaining i : Nat)
    (hi : i + remaining = slots.length) :
    advance isEmpty remaining i = (live i (slots.drop i)).head?.map Entry.stamp := by
  induction remaining generalizing i with
  | zero =>
    rw [List.drop_eq_nil_of_le (by omega)]
    rfl
  | succ remaining ih =>
    have hlt : i < slots.length := by omega
    rw [advance, hempty i hlt, List.drop_eq_getElem_cons hlt]
    cases hslot : slots[i] with
    | none => exact ih (i + 1) (by omega)
    | some p =>
      obtain ⟨k, a⟩ := p
      rfl

end Lib
