/-
V12.Bccompiler.Deletable — which words a round deletes, from the words alone.

The folding loop carries marks from turn to turn, but two triples never share
a word, so every triple the loop reaches is folded (§1). A round then deletes
the second and third word of each of them and the branches to the next header,
and nothing else (§2).
-/
import V12.Bccompiler.Compaction

namespace V12.Bccompiler

open V12.Bytecode

variable {instrs : List Instr} {j k : Nat} {word : Instr}

/-! ## §1 Every triple folds -/

/-- The triple at `j` folds, and the loop reaches it: the last word of the
stream is never looked at. -/
def Folds (instrs : List Instr) (j : Nat) : Prop :=
  j + 3 < instrs.length ∧ ∃ word, Folded instrs j word

theorem Folded.ops (h : Folded instrs j word) :
    ∃ w1 w2 w3, instrs[j]? = some w1 ∧ instrs[j + 1]? = some w2 ∧ instrs[j + 2]? = some w3 ∧
      w1.op = some .loadInt ∧ w2.op = some .loadInt ∧ w3.op ≠ some .loadInt := by
  obtain ⟨w1, w2, w3, h1, h2, h3, htriple⟩ := h.words
  obtain ⟨hop1, hop2, hop3, -⟩ := foldTriple_ops htriple
  refine ⟨w1, w2, w3, h1, h2, h3, hop1, hop2, fun hop => ?_⟩
  rw [hop] at hop3
  rcases hop3 with h | h | h <;> cases h

theorem folded_disjoint {word' : Instr} (hj : Folded instrs j word) (hk : Folded instrs k word')
    (hlt : j < k) : j + 2 < k := by
  obtain ⟨w1, w2, w3, h1, h2, h3, -, -, hop3⟩ := hj.ops
  obtain ⟨v1, v2, v3, g1, g2, g3, hop1, hop2, -⟩ := hk.ops
  by_contra hle
  have hcase : k = j + 1 ∨ k = j + 2 := by omega
  rcases hcase with rfl | rfl
  · rw [h3, Option.some.injEq] at g2
    exact hop3 (g2 ▸ hop2)
  · rw [h3, Option.some.injEq] at g1
    exact hop3 (g1 ▸ hop1)

theorem foldedWord_of {i : Nat} {m : Marks} (hstate : FoldState instrs (i + 1) m)
    (h : Folded instrs i word) :
    foldedWord (widths instrs) m (i + 1) = some word := by
  obtain ⟨w1, w2, w3, h1, h2, h3, htriple⟩ := h.words
  -- a word deleted before would lie in an earlier triple
  have hkept (k : Nat) (hk : k = i ∨ k = i + 1) (hlt : k < instrs.length) :
      m.keep[k]? = some true := by
    have hlt' : k < m.keep.length := hstate.keepLength ▸ hlt
    rw [List.getElem?_eq_getElem hlt', Option.some.injEq, ← Bool.not_eq_false]
    intro hfalse
    obtain ⟨j, word', hj, hji, hkj, -⟩ :=
      hstate.deleted k (by rw [List.getElem?_eq_getElem hlt', hfalse])
    have := folded_disjoint hj h (by omega)
    omega
  have hlt1 := (List.getElem?_eq_some_iff.mp h1).1
  have hlt2 := (List.getElem?_eq_some_iff.mp h2).1
  have hwords : m.instrs[i]? = some w1 ∧ m.instrs[i + 1]? = some w2 ∧
      m.instrs[i + 2]? = some w3 :=
    ⟨hstate.ahead i (by omega) ▸ h1, hstate.ahead (i + 1) (by omega) ▸ h2,
      hstate.ahead (i + 2) (by omega) ▸ h3⟩
  simp only [foldedWord, Nat.add_sub_cancel, hwords]
  rw [if_pos ⟨hkept _ (Or.inr rfl) hlt2, hkept _ (Or.inl rfl) hlt1, h.second, h.first, h.third⟩]
  exact htriple

theorem foldAt_deleted {ws : List Nat} {m : Marks} (i : Nat) (h : m.keep[k]? = some false) :
    (foldAt ws m i).keep[k]? = some false := by
  have hset (keep : List Bool) (i : Nat) (hk : keep[k]? = some false) :
      (keep.set i false)[k]? = some false := by
    by_cases heq : i = k
    · subst heq
      exact List.getElem?_set_self (List.getElem?_eq_some_iff.mp hk).1
    · rw [List.getElem?_set_ne heq, hk]
  unfold foldAt
  split
  · exact h
  · exact hset _ _ (hset _ _ h)

theorem folds_deleted (instrs : List Instr) (c : Nat) (h : Folded instrs j word) (hturn : j < c) :
    let m := (List.range' 1 c).foldl (foldAt (widths instrs))
      ⟨instrs, List.replicate instrs.length true⟩
    m.keep[j + 1]? = some false ∧ m.keep[j + 2]? = some false := by
  induction c with
  | zero => omega
  | succ c ih =>
    have hstate := foldState_turns instrs c
    simp only [List.range'_1_concat, List.foldl_append, List.foldl_cons, List.foldl_nil,
      Nat.add_comm 1 c] at ih ⊢
    by_cases hlast : j = c
    · subst hlast
      obtain ⟨_, _, w3, -, -, h3, -⟩ := h.ops
      have hlt3 := (List.getElem?_eq_some_iff.mp h3).1
      have hlen := hstate.keepLength
      rw [foldAt, foldedWord_of hstate h]
      constructor
      · rw [List.getElem?_set_ne (by omega), List.getElem?_set_self (by omega)]
      · rw [List.getElem?_set_self (by simp; omega)]
    · obtain ⟨hd1, hd2⟩ := ih (by omega)
      exact ⟨foldAt_deleted _ hd1, foldAt_deleted _ hd2⟩

/-! ## §2 What a round deletes -/

/-- The word at `k` is a branch to the next header, or the second or third word
of a triple that folds. -/
def Deletable (instrs : List Instr) (k : Nat) : Prop :=
  deadBranch (widths instrs) instrs k = true ∨
    ∃ j, Folds instrs j ∧ (k = j + 1 ∨ k = j + 2)

theorem exists_header {i : Nat} (hlt : i < instrs.length) :
    ∃ pc k, AtHeader instrs pc ∧ k < widthAt instrs pc ∧ i = pc + k := by
  induction i using Nat.strong_induction_on with
  | _ i ih =>
    by_cases hheader : AtHeader instrs i
    · exact ⟨i, 0, hheader, wordWidth_pos _, rfl⟩
    · -- the header of the word in front ends behind this word
      cases i with
      | zero => exact absurd (atHeader_zero instrs) hheader
      | succ i =>
        obtain ⟨pc, k, hpc, hk, rfl⟩ := ih i (by omega) (by omega)
        refine ⟨pc, k + 1, hpc, ?_, rfl⟩
        by_contra hend
        have hwidth : widthAt instrs pc = k + 1 := by omega
        have hnext := hpc.next (by omega)
        rw [hwidth] at hnext
        exact hheader hnext

theorem deadBranch_foldedOf (ws : List Nat) (instrs : List Instr) (k : Nat) :
    deadBranch ws (foldedOf instrs) k = deadBranch ws instrs k := by
  have hliteral {w : Instr} {words : List Instr} (hget : words[k]? = some w)
      (hop : w.op = some .loadInt) : deadBranch ws words k = false := by
    simp [deadBranch, hget, hop]
  rcases foldedOf_cases instrs k with hsame | ⟨word, hfold, hword, -⟩
  · simp only [deadBranch, hsame]
  · obtain ⟨w1, -, -, h1, -, -, hop1, -⟩ := hfold.ops
    obtain ⟨_, _, _, -, -, -, htriple⟩ := hfold.words
    obtain ⟨-, -, -, v, hv⟩ := foldTriple_ops htriple
    rw [hliteral hword (by rw [hv]; exact Instr.op_new _ _ _ _), hliteral h1 hop1]

theorem Deletable.header (h : Deletable instrs k) :
    k < instrs.length ∧ AtHeader instrs k ∧ ∃ w, instrs[k]? = some w ∧ w.op ≠ some .wide := by
  rcases h with hdead | ⟨j, ⟨-, word, hfold⟩, hk⟩
  · obtain ⟨w, hw, hskip⟩ := isSkip_of_deadBranch hdead
    have hlt := (List.getElem?_eq_some_iff.mp hw).1
    refine ⟨hlt, (atHeader_iff hlt).mpr fun hzero => ?_, w, hw, fun hop => ?_⟩
    · simp [deadBranch, hw, hzero] at hdead
    · rw [hop] at hskip
      rcases hskip with h | h | h <;> cases h
  · obtain ⟨w1, w2, w3, h1, h2, h3, htriple⟩ := hfold.words
    obtain ⟨-, hop2, hop3, -⟩ := foldTriple_ops htriple
    rcases hk with rfl | rfl
    · have hlt := (List.getElem?_eq_some_iff.mp h2).1
      exact ⟨hlt, (atHeader_iff hlt).mpr (by simp [hfold.second]), w2, h2, by simp [hop2]⟩
    · have hlt := (List.getElem?_eq_some_iff.mp h3).1
      refine ⟨hlt, (atHeader_iff hlt).mpr hfold.third, w3, h3, fun hop => ?_⟩
      rw [hop] at hop3
      rcases hop3 with h | h | h <;> cases h

theorem foldMarks_iff :
    (foldMarks instrs).keep[k]? = some false ↔ ∃ j, Folds instrs j ∧ (k = j + 1 ∨ k = j + 2) := by
  constructor
  · intro hk
    obtain ⟨j, word, hfold, hj, hkj, -⟩ := (foldState instrs).deleted k hk
    exact ⟨j, ⟨by omega, word, hfold⟩, hkj⟩
  · rintro ⟨j, ⟨hlt, word, hfold⟩, hkj⟩
    obtain ⟨hd1, hd2⟩ := folds_deleted instrs (instrs.length - 3) hfold (by omega)
    rcases hkj with rfl | rfl
    · exact hd1
    · exact hd2

/-- **What a round deletes.** -/
theorem deletable_iff :
    (keepOf instrs)[k]? = some false ↔ Deletable instrs k := by
  have hat {k : Nat} (hlt : k < instrs.length) (hheader : AtHeader instrs k) :
      (keepOf instrs)[k]? = some false ↔ Deletable instrs k := by
    have hmark : k < (foldMarks instrs).keep.length := (foldState instrs).keepLength ▸ hlt
    rw [keepOf_header hheader hlt, Deletable, ← foldMarks_iff, deadBranch_foldedOf,
      List.getElem?_eq_getElem hmark]
    cases (foldMarks instrs).keep[k] <;> simp
  constructor
  · intro hdel
    have hlt : k < instrs.length := by
      rw [← length_keepOf]
      exact (List.getElem?_eq_some_iff.mp hdel).1
    obtain ⟨pc, d, hpc, hd, rfl⟩ := exists_header hlt
    rw [keepOf_payload hpc hd hlt] at hdel
    have hdeletable := (hat (by omega) hpc).mp hdel
    -- a deleted header carries no payload
    obtain ⟨-, -, w, hw, hop⟩ := hdeletable.header
    have hzero : d = 0 := by
      rw [widthAt_narrow hw hop] at hd
      omega
    exact hzero ▸ hdeletable
  · intro h
    obtain ⟨hlt, hheader, -⟩ := h.header
    exact (hat hlt hheader).mpr h

theorem kept_iff (hlt : k < instrs.length) :
    (keepOf instrs)[k]? = some true ↔ ¬ Deletable instrs k := by
  rw [← deletable_iff, List.getElem?_eq_getElem (by simpa using hlt)]
  simp

end V12.Bccompiler
