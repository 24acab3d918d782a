/-
V12.Heap.StubLookup — the plain lookup of the stub cache, against what was
recorded for a pair.

`lookup` and `lookup_proto` read one table, but only the second tells the
entries of a chain from those of an own property. A run of the table keeps,
beside it, the own slot last recorded for each pair since the last clear.
-/
import V12.Heap.StubCache
import V12.Lib.Run

namespace V12.Heap

namespace StubCache

/-! ## §1 The plain operations -/

/-- `record`. -/
def record (c : StubCache) (shape : Nat) (key : PropKey) (slot : Nat) : StubCache :=
  c.place (stubHash shape key)
    ⟨c.generation, shape, key, slot, noHandle, shape, none, none, noHandle, 0⟩

/-- The entry at `i` counts and names the pair. -/
def Names (c : StubCache) (i shape : Nat) (key : PropKey) : Prop :=
  (c.slots i).stamp = c.generation ∧ (c.slots i).shape = shape ∧ (c.slots i).key = key

instance (c : StubCache) (i shape : Nat) (key : PropKey) : Decidable (c.Names i shape key) :=
  inferInstanceAs (Decidable (_ ∧ _))

/-- `matching_slot`. -/
def matchingSlot (c : StubCache) (i shape : Nat) (key : PropKey) : Option Nat :=
  if c.Names i shape key then some (c.slots i).slot else none

/-- `lookup`. -/
def lookup (c : StubCache) (shape : Nat) (key : PropKey) : Option Nat :=
  let hash := stubHash shape key
  match c.matchingSlot (homeIndex hash) shape key with
  | some slot => some slot
  | none =>
    if (c.slots (homeIndex hash)).stamp = c.generation then
      c.matchingSlot (altIndex hash) shape key
    else none

def answering (c : StubCache) (shape : Nat) (key : PropKey) : Option Nat :=
  let hash := stubHash shape key
  if c.Names (homeIndex hash) shape key then some (homeIndex hash)
  else if (c.slots (homeIndex hash)).stamp = c.generation ∧ c.Names (altIndex hash) shape key then
    some (altIndex hash)
  else none

theorem lookup_eq (c : StubCache) (shape : Nat) (key : PropKey) :
    c.lookup shape key = (c.answering shape key).map fun i => (c.slots i).slot := by
  by_cases hhome : c.Names (homeIndex (stubHash shape key)) shape key
  · simp [lookup, answering, matchingSlot, hhome]
  · by_cases hstamp : (c.slots (homeIndex (stubHash shape key))).stamp = c.generation
    · by_cases halt : c.Names (altIndex (stubHash shape key)) shape key
      · simp [lookup, answering, matchingSlot, hhome, hstamp, halt]
      · simp [lookup, answering, matchingSlot, hhome, halt]
    · simp [lookup, answering, matchingSlot, hhome, hstamp]

theorem names_of_answering {c : StubCache} {i shape : Nat} {key : PropKey}
    (h : c.answering shape key = some i) : c.Names i shape key := by
  unfold answering at h
  simp only [] at h
  split at h
  case isTrue hhome =>
    cases h
    exact hhome
  case isFalse =>
    split at h
    case isTrue halt =>
      cases h
      exact halt.2
    case isFalse => cases h

end StubCache

/-- A change of the table; `recordProto` without a first link records an own property. -/
inductive StubOp where
  | record (shape : Nat) (key : PropKey) (slot : Nat)
  | recordProto (shape : Nat) (key : PropKey) (holder holderShape slot : Nat) (chain : Chain)
  | clear

/-- The table, and the own slot last recorded for each pair since the last clear. -/
structure StubRun where
  cache : StubCache
  own : Nat → PropKey → Option Nat

namespace StubRun

open StubCache

variable {shape : Nat} {key : PropKey} {s : StubRun}

def start : StubRun := ⟨.new, fun _ _ => none⟩

def recordOwn (s : StubRun) (shape : Nat) (key : PropKey) (slot : Nat) :
    Nat → PropKey → Option Nat :=
  fun shape' key' => if shape' = shape ∧ key' = key then some slot else s.own shape' key'

def step (s : StubRun) : StubOp → StubRun
  | .record shape key slot => ⟨s.cache.record shape key slot, s.recordOwn shape key slot⟩
  | .recordProto shape key holder holderShape slot chain =>
    ⟨s.cache.recordProto shape key holder holderShape slot chain,
      if chain.link0.isNone then s.recordOwn shape key slot else s.own⟩
  | .clear => ⟨s.cache.clear, fun _ _ => none⟩

def Room (s : StubRun) : StubOp → Prop
  | .clear => s.cache.generation + 1 < 2 ^ 64
  | _ => True

instance (s : StubRun) (op : StubOp) : Decidable (s.Room op) := by
  cases op <;> simp only [Room] <;> infer_instance

/-- A lookup misses or returns the own slot last recorded for the pair, and no entry of a chain
is what it answers from. -/
def Answers (s : StubRun) (shape : Nat) (key : PropKey) : Prop :=
  (s.cache.lookup shape key = none ∨ s.cache.lookup shape key = s.own shape key) ∧
    ∀ i, s.cache.answering shape key = some i → (s.cache.slots i).link0 = none

def NoChainEntry (s : StubRun) (shape : Nat) (key : PropKey) : Prop :=
  ∀ i, s.cache.Names i shape key → (s.cache.slots i).link0 = none

/-! ## §2 Where the entries of a pair are -/

/-- An entry that counts is at home, or at the secondary address behind a current entry of
another pair, and an own entry has the slot last recorded. -/
structure Inv (s : StubRun) : Prop where
  stamped : s.cache.Stamped
  placed : ∀ {i shape : Nat} {key : PropKey}, s.cache.Names i shape key →
    i = homeIndex (stubHash shape key) ∨
      (i = altIndex (stubHash shape key) ∧ s.cache.Taken (homeIndex (stubHash shape key)) shape key)
  own : ∀ {i shape : Nat} {key : PropKey}, s.cache.Names i shape key →
    (s.cache.slots i).link0 = none → s.own shape key = some (s.cache.slots i).slot

theorem not_taken_of_names {c : StubCache} {i : Nat} (h : c.Names i shape key) :
    ¬ c.Taken i shape key := fun ht => ht.2 h.2

theorem inv_start : start.Inv := by
  have hnone : ∀ (i shape : Nat) (key : PropKey), ¬ start.cache.Names i shape key := by
    intro i shape key h
    cases h.1
  exact ⟨stamped_new, fun h => absurd h (hnone _ _ _), fun h => absurd h (hnone _ _ _)⟩

theorem place_cases (c : StubCache) (shape : Nat) (key : PropKey) (written : StubSlot)
    (hshape : written.shape = shape) (hkey : written.key = key) :
    ∃ i, c.place (stubHash shape key) written =
        { c with slots := Function.update c.slots i written } ∧
      ((i = homeIndex (stubHash shape key) ∧ (¬ c.Taken i shape key ∨
          c.Taken (altIndex (stubHash shape key)) shape key)) ∨
        (i = altIndex (stubHash shape key) ∧ ¬ c.Taken i shape key ∧
          c.Taken (homeIndex (stubHash shape key)) shape key)) := by
  subst hshape hkey
  unfold place
  simp only []
  split
  case isTrue hfree => exact ⟨_, rfl, .inl ⟨rfl, .inl hfree⟩⟩
  case isFalse htaken =>
    have htaken := not_not.mp htaken
    split
    case isTrue hfree => exact ⟨_, rfl, .inr ⟨rfl, hfree, htaken⟩⟩
    case isFalse hboth => exact ⟨_, rfl, .inl ⟨rfl, .inr (not_not.mp hboth)⟩⟩

theorem Inv.place (h : s.Inv) {slot : Nat} {written : StubSlot}
    (hstamp : written.stamp = s.cache.generation) (hshape : written.shape = shape)
    (hkey : written.key = key) (hslot : written.slot = slot) :
    Inv ⟨s.cache.place (stubHash shape key) written,
      if written.link0.isNone then s.recordOwn shape key slot else s.own⟩ := by
  obtain ⟨j, hplace, hj⟩ := place_cases s.cache shape key written hshape hkey
  have hstamped : (s.cache.place (stubHash shape key) written).Stamped :=
    stamped_place h.stamped hstamp
  rw [hplace] at hstamped ⊢
  -- an entry of the pair that stays was not at the address written
  have hgone {i : Nat} (hi : i ≠ j) : ¬ s.cache.Names i shape key := by
    intro hnames
    rcases h.placed hnames with heq | ⟨heq, htaken⟩
    · rcases hj with ⟨hjhome, -⟩ | ⟨-, -, htaken⟩
      · exact hi (heq.trans hjhome.symm)
      · exact not_taken_of_names hnames (heq ▸ htaken)
    · rcases hj with ⟨hjhome, hfree | htaken'⟩ | ⟨hjalt, -, -⟩
      · exact hfree (hjhome ▸ htaken)
      · exact not_taken_of_names hnames (heq ▸ htaken')
      · exact hi (heq.trans hjalt.symm)
  have hnames {i shape' : Nat} {key' : PropKey}
      (hn : Names ⟨Function.update s.cache.slots j written, s.cache.generation⟩ i shape' key') :
      (i = j ∧ shape' = shape ∧ key' = key) ∨
        (i ≠ j ∧ s.cache.Names i shape' key' ∧ ¬ (shape' = shape ∧ key' = key)) := by
    by_cases hi : i = j
    · subst hi
      obtain ⟨-, hs, hk⟩ := hn
      simp only [Function.update_self] at hs hk
      exact .inl ⟨rfl, by rw [← hs, hshape], by rw [← hk, hkey]⟩
    · have hold : s.cache.Names i shape' key' := by
        simpa [Names, Function.update_of_ne hi] using hn
      refine .inr ⟨hi, hold, ?_⟩
      rintro ⟨rfl, rfl⟩
      exact hgone hi hold
  have htaken {i shape' : Nat} {key' : PropKey} (hne : ¬ (shape' = shape ∧ key' = key))
      (ht : s.cache.Taken i shape' key') :
      Taken ⟨Function.update s.cache.slots j written, s.cache.generation⟩ i shape' key' := by
    by_cases hi : i = j
    · subst hi
      simp only [Taken, Function.update_self]
      refine ⟨hstamp, ?_⟩
      rw [hshape, hkey]
      rintro ⟨rfl, rfl⟩
      exact hne ⟨rfl, rfl⟩
    · simpa [Taken, Function.update_of_ne hi] using ht
  refine ⟨hstamped, ?_, ?_⟩
  · intro i shape' key' hn
    rcases hnames hn with ⟨rfl, rfl, rfl⟩ | ⟨hi, hold, hne⟩
    · rcases hj with ⟨hhome, -⟩ | ⟨halt, hfree, hhome⟩
      · exact .inl hhome
      · refine .inr ⟨halt, ?_⟩
        have hdiff : homeIndex (stubHash shape' key') ≠ i := by
          intro heq
          exact hfree (heq ▸ hhome)
        simpa [Taken, Function.update_of_ne hdiff] using hhome
    · rcases h.placed hold with heq | ⟨heq, ht⟩
      · exact .inl heq
      · exact .inr ⟨heq, htaken hne ht⟩
  · intro i shape' key' hn hlink
    rcases hnames hn with ⟨rfl, rfl, rfl⟩ | ⟨hi, hold, hne⟩
    · simp only [Function.update_self] at hlink ⊢
      rw [hlink, hslot]
      simp [recordOwn]
    · simp only [Function.update_of_ne hi] at hlink ⊢
      rw [← h.own hold hlink]
      split
      · exact if_neg hne
      · rfl

theorem Inv.clear (h : s.Inv) (hroom : s.cache.generation + 1 < 2 ^ 64) :
    (s.step .clear).Inv := by
  have hnone : ∀ (i shape : Nat) (key : PropKey), ¬ s.cache.clear.Names i shape key := by
    intro i shape key hn
    exact not_current_clear h.stamped hroom _ ⟨i, rfl, hn.1⟩
  exact ⟨stamped_clear h.stamped hroom, fun hn => absurd hn (hnone _ _ _),
    fun hn => absurd hn (hnone _ _ _)⟩

theorem inv_step (h : s.Inv) (op : StubOp) (hroom : s.Room op) :
    (s.step op).Inv := by
  cases op with
  | record shape key slot =>
    have hown {written : StubSlot} (heq : written = ⟨s.cache.generation, shape, key, slot, noHandle,
        shape, none, none, noHandle, 0⟩) := h.place (congrArg StubSlot.stamp heq)
      (congrArg StubSlot.shape heq) (congrArg StubSlot.key heq) (congrArg StubSlot.slot heq)
    exact hown rfl
  | recordProto shape key holder holderShape slot chain =>
    have hproto {written : StubSlot} (heq : written = ⟨s.cache.generation, shape, key, slot, holder,
        holderShape, chain.link0, chain.link1, chain.midShape, chain.protoGen⟩) :=
      h.place (congrArg StubSlot.stamp heq) (congrArg StubSlot.shape heq)
        (congrArg StubSlot.key heq) (congrArg StubSlot.slot heq)
    exact hproto rfl
  | clear => exact h.clear hroom

/-! ## §3 What a lookup answers -/

theorem Inv.answering_of_names (h : s.Inv) {i : Nat} (hnames : s.cache.Names i shape key) :
    s.cache.answering shape key = some i := by
  unfold answering
  rcases h.placed hnames with heq | ⟨heq, htaken⟩
  · subst heq
    exact if_pos hnames
  · subst heq
    have hhome : ¬ s.cache.Names (homeIndex (stubHash shape key)) shape key :=
      fun hn => not_taken_of_names hn htaken
    simp only [if_neg hhome]
    exact if_pos ⟨htaken.1, hnames⟩

theorem answers_of_noChainEntry (h : s.Inv) (hno : s.NoChainEntry shape key) :
    s.Answers shape key := by
  refine ⟨?_, fun i hanswering => hno i (names_of_answering hanswering)⟩
  rw [lookup_eq]
  cases hanswering : s.cache.answering shape key with
  | none => exact .inl rfl
  | some i =>
    have hnames := names_of_answering hanswering
    exact .inr (h.own hnames (hno i hnames)).symm

theorem noChainEntry_of_answers (h : s.Inv) (hanswers : s.Answers shape key) :
    s.NoChainEntry shape key := by
  intro i hnames
  exact hanswers.2 i (h.answering_of_names hnames)

/-- **What a lookup answers** after any operations on a fresh table. -/
theorem answers_iff (ops : List StubOp) (hroom : Lib.StepsMeet step Room start ops) (shape : Nat)
    (key : PropKey) :
    (Lib.run step start ops).Answers shape key ↔
      (Lib.run step start ops).NoChainEntry shape key := by
  have h : (Lib.run step start ops).Inv :=
    Lib.run_invariant (fun s op (hs : s.Inv) hr => inv_step hs op hr) inv_start hroom
  exact ⟨noChainEntry_of_answers h, answers_of_noChainEntry h⟩

/-- An own property recorded over the entry of a chain is answered. -/
theorem answers_rerecorded :
    (Lib.run step start [.recordProto 7 (.string 1) 4 9 3 ⟨0, some 4, none, 9⟩,
      .record 7 (.string 1) 2]).Answers 7 (.string 1) ↔
    (Lib.run step start [.recordProto 7 (.string 1) 4 9 3 ⟨0, some 4, none, 9⟩,
      .record 7 (.string 1) 2]).NoChainEntry 7 (.string 1) :=
  answers_iff _ (by decide) 7 (.string 1)

/-- The slot of a holder up the chain, answered as the receiver's own. -/
theorem chain_entry_answered :
    (Lib.run step start [.recordProto 7 (.string 1) 4 9 3 ⟨0, some 4, none, 9⟩]).cache.lookup 7
        (.string 1) = some 3 ∧
      ¬ (Lib.run step start
        [.recordProto 7 (.string 1) 4 9 3 ⟨0, some 4, none, 9⟩]).Answers 7 (.string 1) := by
  have hhit : (Lib.run step start
      [.recordProto 7 (.string 1) 4 9 3 ⟨0, some 4, none, 9⟩]).cache.lookup 7 (.string 1) =
      some 3 := by decide
  refine ⟨hhit, fun h => ?_⟩
  rcases h.1 with hmiss | hown
  · rw [hhit] at hmiss
    cases hmiss
  · rw [hhit] at hown
    cases hown

end StubRun

end V12.Heap
