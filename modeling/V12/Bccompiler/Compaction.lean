/-
V12.Bccompiler.Compaction — the index map and the layout of a round.

`newIndex` counts the kept words in front, so it is monotone, and a kept word
is found in the compacted stream at its new index. The layout (`widths`) is
read at headers: `AtHeader` says that a pc is one, and a header's width leads
to the next. Payload words are kept exactly when their header is.
-/
import V12.Bccompiler.Peephole
import V12.Bytecode.WideTheorems

namespace V12.Bccompiler

open V12.Bytecode

variable {keep : List Bool} {i k pc : Nat} {instrs : List Instr} {word : Instr} {ws : List Nat}

/-! ## §1 The index map -/

theorem newIndex_succ (keep : List Bool) (i : Nat) :
    newIndex keep (i + 1) = newIndex keep i + if keep[i]? = some true then 1 else 0 := by
  unfold newIndex
  by_cases hi : i < keep.length
  · rw [List.take_add_one, List.getElem?_eq_getElem hi, Option.toList_some, List.count_append]
    cases keep[i] <;> simp
  · rw [List.take_of_length_le (by omega), List.take_of_length_le (by omega),
      List.getElem?_eq_none (by omega)]
    simp

theorem newIndex_kept (h : keep[i]? = some true) :
    newIndex keep (i + 1) = newIndex keep i + 1 := by
  rw [newIndex_succ, if_pos h]

theorem newIndex_deleted (h : keep[i]? ≠ some true) :
    newIndex keep (i + 1) = newIndex keep i := by
  rw [newIndex_succ, if_neg h]
  rfl

@[simp] theorem newIndex_zero (keep : List Bool) : newIndex keep 0 = 0 := by
  simp [newIndex]

theorem newIndex_mono (keep : List Bool) {j : Nat} (h : i ≤ j) :
    newIndex keep i ≤ newIndex keep j := by
  induction j, h using Nat.le_induction with
  | base => exact Nat.le_refl _
  | succ j _ ih =>
    rw [newIndex_succ]
    omega

theorem newIndex_le (keep : List Bool) (i : Nat) : newIndex keep i ≤ i := by
  induction i with
  | zero => simp
  | succ i ih =>
    rw [newIndex_succ]
    split <;> omega

theorem newIndex_of_length_le (h : keep.length ≤ i) :
    newIndex keep i = newIndex keep keep.length := by
  rw [newIndex, newIndex, List.take_of_length_le h, List.take_length]

theorem newIndex_le_length (keep : List Bool) (i : Nat) :
    newIndex keep i ≤ newIndex keep keep.length := by
  by_cases h : i ≤ keep.length
  · exact newIndex_mono keep h
  · exact Nat.le_of_eq (newIndex_of_length_le (by omega))

theorem newIndex_lt_iff (h : keep[i]? = some true) (j : Nat) :
    newIndex keep i < newIndex keep j ↔ i < j := by
  constructor
  · intro hlt
    by_contra hge
    have := newIndex_mono keep (show j ≤ i by omega)
    omega
  · intro hlt
    have := newIndex_mono keep (show i + 1 ≤ j by omega)
    rw [newIndex_kept h] at this
    omega

theorem newIndex_of_all_kept (h : false ∉ keep) (hi : i ≤ keep.length) : newIndex keep i = i := by
  have hall : keep = List.replicate keep.length true :=
    List.eq_replicate_of_mem fun b hb => by
      cases b with
      | true => rfl
      | false => exact absurd hb h
  rw [hall, newIndex, List.take_replicate, List.count_replicate_self]
  rw [hall, List.length_replicate] at hi
  omega

theorem exists_kept {j n : Nat} (h : j < newIndex keep n) :
    ∃ i, i < n ∧ keep[i]? = some true ∧ newIndex keep i = j := by
  induction n with
  | zero => simp at h
  | succ n ih =>
    by_cases hk : keep[n]? = some true
    · rw [newIndex_kept hk] at h
      by_cases hj : j = newIndex keep n
      · exact ⟨n, Nat.lt_succ_self n, hk, hj.symm⟩
      · obtain ⟨i, hi, hrest⟩ := ih (by omega)
        exact ⟨i, Nat.lt_succ_of_lt hi, hrest⟩
    · rw [newIndex_deleted hk] at h
      obtain ⟨i, hi, hrest⟩ := ih h
      exact ⟨i, Nat.lt_succ_of_lt hi, hrest⟩

theorem kept_lt_length (h : keep[i]? = some true) :
    i < keep.length := (List.getElem?_eq_some_iff.mp h).1

/-! ## §2 Compacted lists -/

section Compact

variable {α : Type}

@[simp] theorem compact_nil_left (items : List α) : compact [] items = [] := by
  simp [compact]

@[simp] theorem compact_nil_right (keep : List Bool) : compact keep ([] : List α) = [] := by
  simp [compact]

theorem compact_cons (k : Bool) (keep : List Bool) (x : α) (items : List α) :
    compact (k :: keep) (x :: items) = if k then x :: compact keep items else compact keep items := by
  cases k <;> simp [compact]

theorem newIndex_cons_succ (k : Bool) (keep : List Bool) (i : Nat) :
    newIndex (k :: keep) (i + 1) = (if k then 1 else 0) + newIndex keep i := by
  cases k <;> simp [newIndex, Nat.add_comm]

theorem length_compact {keep : List Bool} : ∀ {items : List α}, items.length = keep.length →
    (compact keep items).length = newIndex keep keep.length := by
  induction keep with
  | nil => intro items _; simp
  | cons k keep ih =>
    intro items h
    cases items with
    | nil => simp at h
    | cons x items =>
      have hlen : items.length = keep.length := by simpa using h
      rw [compact_cons, List.length_cons, newIndex_cons_succ]
      cases k
      · simpa using ih hlen
      · simp [ih hlen, Nat.add_comm]

theorem getElem?_compact {keep : List Bool} : ∀ {items : List α} {i : Nat},
    keep[i]? = some true → (compact keep items)[newIndex keep i]? = items[i]? := by
  induction keep with
  | nil => intro items i h; simp at h
  | cons k keep ih =>
    intro items i h
    cases items with
    | nil => simp
    | cons x items =>
      rw [compact_cons]
      cases i with
      | zero =>
        have hk : k = true := by simpa using h
        simp [hk]
      | succ i =>
        have hi : keep[i]? = some true := by simpa using h
        rw [newIndex_cons_succ, List.getElem?_cons_succ, ← ih hi]
        cases k
        · simp
        · rw [if_pos rfl, if_pos rfl, Nat.add_comm, List.getElem?_cons_succ]

theorem compact_sublist (keep : List Bool) (items : List α) :
    (compact keep items).Sublist items := by
  induction keep generalizing items with
  | nil => simp
  | cons k keep ih =>
    cases items with
    | nil => simp
    | cons x items =>
      rw [compact_cons]
      cases k
      · exact (ih items).cons x
      · exact (ih items).cons_cons x

theorem compact_map {β : Type} (f : α → β) (keep : List Bool) (items : List α) :
    compact keep (items.map f) = (compact keep items).map f := by
  induction keep generalizing items with
  | nil => simp
  | cons k keep ih =>
    cases items with
    | nil => simp
    | cons x items =>
      rw [List.map_cons, compact_cons, compact_cons, ih]
      cases k <;> simp

end Compact

/-! ## §3 The layout -/

-- The equations are made here, ahead of the proofs below that all ask for them.
attribute [local simp] widthsFrom

theorem length_widthsFrom (skip : Nat) (words : List Instr) :
    (widthsFrom skip words).length = words.length := by
  induction words generalizing skip with
  | nil => cases skip <;> rfl
  | cons word rest ih =>
    cases skip with
    | zero => simp [widthsFrom, ih]
    | succ skip => simp [widthsFrom, ih]

@[simp] theorem length_widths (instrs : List Instr) : (widths instrs).length = instrs.length :=
  length_widthsFrom 0 instrs

theorem drop_widthsFrom (skip : Nat) (words : List Instr) :
    (widthsFrom skip words).drop skip = widthsFrom 0 (words.drop skip) := by
  induction skip generalizing words with
  | zero => rfl
  | succ skip ih =>
    cases words with
    | nil => simp [widthsFrom]
    | cons word rest => simpa [widthsFrom] using ih rest

theorem widthsFrom_payload {skip : Nat} {words : List Instr} (hk : k < skip)
    (hlen : k < words.length) : (widthsFrom skip words)[k]? = some 0 := by
  induction k generalizing skip words with
  | zero =>
    obtain ⟨skip, rfl⟩ := Nat.exists_eq_succ_of_ne_zero (by omega : skip ≠ 0)
    obtain ⟨word, rest, rfl⟩ := List.exists_cons_of_length_pos hlen
    rfl
  | succ k ih =>
    obtain ⟨skip, rfl⟩ := Nat.exists_eq_succ_of_ne_zero (by omega : skip ≠ 0)
    obtain ⟨word, rest, rfl⟩ := List.exists_cons_of_length_pos (by omega : 0 < words.length)
    rw [widthsFrom, List.getElem?_cons_succ]
    exact ih (by omega) (by simpa using hlen)

theorem wordWidth_pos (words : List Instr) : 0 < wordWidth words := by
  unfold wordWidth
  split
  · exact Nat.one_pos
  · split
    · split
      case h_1 op width hdec =>
        obtain ⟨-, hlen, -⟩ := WideOp.tryDecode_layout hdec
        have := WideOp.encode_length_pos op
        omega
      case h_2 => exact Nat.one_pos
    · exact Nat.one_pos

/-- `pc` is a header, or the end of the stream. -/
def AtHeader (instrs : List Instr) (pc : Nat) : Prop :=
  (widths instrs).drop pc = widthsFrom 0 (instrs.drop pc)

/-- The width of the header at `pc`. -/
def widthAt (instrs : List Instr) (pc : Nat) : Nat := wordWidth (instrs.drop pc)

theorem atHeader_zero (instrs : List Instr) : AtHeader instrs 0 := rfl

theorem drop_widths (h : AtHeader instrs pc) (hlt : pc < instrs.length) :
    (widths instrs).drop pc =
      widthAt instrs pc :: widthsFrom (widthAt instrs pc - 1) (instrs.drop (pc + 1)) := by
  have hcons : instrs.drop pc = instrs[pc] :: instrs.drop (pc + 1) := List.drop_eq_getElem_cons hlt
  rw [AtHeader] at h
  rw [h, widthAt, hcons, widthsFrom]

theorem widths_header (h : AtHeader instrs pc) (hlt : pc < instrs.length) :
    (widths instrs)[pc]? = some (widthAt instrs pc) := by
  have hd := congrArg (fun l => l[0]?) (drop_widths h hlt)
  simpa [List.getElem?_drop] using hd

theorem widths_payload (h : AtHeader instrs pc) (hk : 0 < k) (hwidth : k < widthAt instrs pc)
    (hlt : pc + k < instrs.length) :
    (widths instrs)[pc + k]? = some 0 := by
  have hd := congrArg (fun l => l[k]?) (drop_widths h (by omega))
  obtain ⟨k, rfl⟩ := Nat.exists_eq_succ_of_ne_zero (by omega : k ≠ 0)
  simp only [List.getElem?_drop, List.getElem?_cons_succ] at hd
  rw [hd]
  refine widthsFrom_payload (by omega) ?_
  rw [List.length_drop]
  omega

theorem AtHeader.next (h : AtHeader instrs pc) (hlt : pc < instrs.length) :
    AtHeader instrs (pc + widthAt instrs pc) := by
  have hpos := wordWidth_pos (instrs.drop pc)
  rw [← widthAt] at hpos
  have hd := congrArg (List.drop (widthAt instrs pc)) (drop_widths h hlt)
  obtain ⟨w, hw⟩ := Nat.exists_eq_succ_of_ne_zero (Nat.ne_of_gt hpos)
  rw [List.drop_drop, hw, List.drop_succ_cons, Nat.succ_sub_one, drop_widthsFrom,
    List.drop_drop, Nat.add_assoc, Nat.add_comm 1] at hd
  rw [AtHeader, hw]
  exact hd

theorem atHeader_of_widths : ∀ (fuel pc i : Nat), AtHeader instrs pc →
    pc ≤ i → i < instrs.length → i - pc ≤ fuel → (widths instrs)[i]? ≠ some 0 →
      AtHeader instrs i
  | fuel, pc, i, h, hle, hlt, hfuel, hw => by
    by_cases heq : i = pc
    · exact heq ▸ h
    · have hpos := wordWidth_pos (instrs.drop pc)
      rw [← widthAt] at hpos
      have hnext : pc + widthAt instrs pc ≤ i := by
        by_contra hin
        obtain ⟨k, rfl⟩ := Nat.exists_eq_add_of_le hle
        exact hw (widths_payload h (by omega) (by omega) hlt)
      match fuel with
      | 0 => omega
      | fuel + 1 =>
        exact atHeader_of_widths fuel _ i (h.next (by omega)) hnext hlt (by omega) hw

theorem atHeader_iff (hlt : i < instrs.length) :
    AtHeader instrs i ↔ (widths instrs)[i]? ≠ some 0 := by
  constructor
  · intro h
    rw [widths_header h hlt]
    have := wordWidth_pos (instrs.drop i)
    simp only [widthAt, ne_eq, Option.some.injEq]
    omega
  · exact atHeader_of_widths i 0 i (atHeader_zero instrs) (Nat.zero_le i) hlt (by omega)

theorem widthAt_narrow (hget : instrs[pc]? = some word) (hop : word.op ≠ some .wide) :
    widthAt instrs pc = 1 := by
  obtain ⟨hlt, hword⟩ := List.getElem?_eq_some_iff.mp hget
  have hcons : instrs.drop pc = word :: instrs.drop (pc + 1) := by
    rw [List.drop_eq_getElem_cons hlt, hword]
  rw [widthAt, hcons, wordWidth]
  split
  · contradiction
  · rfl

theorem widthAt_wide {width : Nat} {op : WideOp}
    (hdec : WideOp.tryDecode (instrs.drop pc) = .ok (op, width)) : widthAt instrs pc = width := by
  obtain ⟨header, rest, hcons, hop, -⟩ := WideOp.tryDecode_ok hdec
  rw [hcons] at hdec
  rw [widthAt, hcons]
  simp only [wordWidth, hop, hdec]

/-! ## §4 Payload words and their header -/

-- The equations are made here, ahead of the proofs below that all ask for them.
attribute [local simp] spreadFrom

theorem length_spreadFrom (header : Bool) : ∀ (ws : List Nat) (ks : List Bool),
    ws.length = ks.length → (spreadFrom header ws ks).length = ks.length
  | [], [], _ => rfl
  | w :: ws, k :: ks, h => by
    have hlen : ws.length = ks.length := by simpa using h
    unfold spreadFrom
    split
    · simp [length_spreadFrom header ws ks hlen]
    · simp [length_spreadFrom k ws ks hlen]

theorem spreadFrom_header {ks : List Bool} (h : ws.length = ks.length) :
    ∀ {header : Bool} {i w : Nat}, ws[i]? = some w → w ≠ 0 →
      (spreadFrom header ws ks)[i]? = ks[i]? := by
  induction ws generalizing ks with
  | nil => intro header i w hw; simp at hw
  | cons w₀ ws ih =>
    intro header i w hw hne
    cases ks with
    | nil => simp at h
    | cons k ks =>
      have hlen : ws.length = ks.length := by simpa using h
      cases i with
      | zero =>
        have hw₀ : w₀ ≠ 0 := by
          rw [List.getElem?_cons_zero, Option.some.injEq] at hw
          exact hw ▸ hne
        simp [spreadFrom, hw₀]
      | succ i =>
        rw [List.getElem?_cons_succ] at hw
        unfold spreadFrom
        split
        · simpa using ih hlen hw hne
        · simpa using ih hlen hw hne

theorem spreadFrom_payload {ks : List Bool} (h : ws.length = ks.length) :
    ∀ {header : Bool} {i : Nat}, ws[i + 1]? = some 0 →
      (spreadFrom header ws ks)[i + 1]? = (spreadFrom header ws ks)[i]? := by
  induction ws generalizing ks with
  | nil => intro header i hw; simp at hw
  | cons w ws ih =>
    intro header i hw
    cases ks with
    | nil => simp at h
    | cons k ks =>
      have hlen : ws.length = ks.length := by simpa using h
      rw [List.getElem?_cons_succ] at hw
      -- what the first word hands on to the rest
      have hhead (b : Bool) : (b :: spreadFrom b ws ks)[i + 1]? = (b :: spreadFrom b ws ks)[i]? := by
        cases i with
        | zero =>
          cases ws with
          | nil => simp at hw
          | cons w' ws =>
            cases ks with
            | nil => simp at hlen
            | cons k' ks =>
              have hw' : w' = 0 := by simpa using hw
              simp [spreadFrom, hw']
        | succ i => simpa using ih hlen hw
      unfold spreadFrom
      split
      · exact hhead header
      · exact hhead k

/-! ## §5 What folding changes -/

/-- The triple at `j` folds to `word`. -/
structure Folded (instrs : List Instr) (j : Nat) (word : Instr) : Prop where
  words : ∃ w1 w2 w3, instrs[j]? = some w1 ∧ instrs[j + 1]? = some w2 ∧ instrs[j + 2]? = some w3 ∧
    foldTriple w1 w2 w3 = some word
  first : (widths instrs)[j]? = some 1
  second : (widths instrs)[j + 1]? = some 1
  third : (widths instrs)[j + 2]? ≠ some 0

theorem foldTriple_ops {w1 w2 w3 : Instr} (h : foldTriple w1 w2 w3 = some word) :
    w1.op = some .loadInt ∧ w2.op = some .loadInt ∧
      (w3.op = some .add ∨ w3.op = some .sub ∨ w3.op = some .mul) ∧
      ∃ v, word = Instr.new .loadInt w3.a 0 v := by
  unfold foldTriple at h
  split at h
  case h_1 => cases h
  case h_2 op3 hop3 =>
    split at h
    case isFalse => cases h
    case isTrue hops =>
      obtain ⟨h1, h2, h3⟩ := hops
      obtain ⟨v, -, rfl⟩ := Option.map_eq_some_iff.mp h
      refine ⟨h1, h2, ?_, BitVec.ofInt 8 v, rfl⟩
      rw [hop3]
      simpa using h3

/-- The folding loop before turn `i`. -/
structure FoldState (instrs : List Instr) (i : Nat) (m : Marks) : Prop where
  length : m.instrs.length = instrs.length
  keepLength : m.keep.length = instrs.length
  ahead : ∀ k, i ≤ k + 1 → m.instrs[k]? = instrs[k]?
  aheadKeep : ∀ k, i < k → m.keep[k]? ≠ some false
  deleted : ∀ k, m.keep[k]? = some false → ∃ j word, Folded instrs j word ∧ j + 1 < i ∧
    (k = j + 1 ∨ k = j + 2) ∧ m.keep[j]? = some true ∧ m.instrs[j]? = some word
  rewritten : ∀ k, m.instrs[k]? = instrs[k]? ∨ ∃ word, Folded instrs k word ∧
    m.instrs[k]? = some word ∧ m.keep[k]? = some true ∧ m.keep[k + 1]? = some false ∧
      m.keep[k + 2]? = some false

theorem foldState_start (instrs : List Instr) :
    FoldState instrs 1 ⟨instrs, List.replicate instrs.length true⟩ where
  length := rfl
  keepLength := List.length_replicate
  ahead _ _ := rfl
  aheadKeep k _ h := by
    have := List.getElem?_replicate (a := true) (n := instrs.length) (i := k)
    rw [h] at this
    split at this <;> simp at this
  deleted k h := by
    have := List.getElem?_replicate (a := true) (n := instrs.length) (i := k)
    rw [h] at this
    split at this <;> simp at this
  rewritten _ := Or.inl rfl

theorem foldedWord_some {m : Marks} (h : foldedWord ws m i = some word) :
    (∃ w1 w2 w3, m.instrs[i - 1]? = some w1 ∧ m.instrs[i]? = some w2 ∧
      m.instrs[i + 1]? = some w3 ∧ foldTriple w1 w2 w3 = some word) ∧
    m.keep[i]? = some true ∧ m.keep[i - 1]? = some true ∧ ws[i]? = some 1 ∧
      ws[i - 1]? = some 1 ∧ ws[i + 1]? ≠ some 0 := by
  unfold foldedWord at h
  split at h
  case h_1 w1 w2 w3 h1 h2 h3 =>
    split at h
    case isTrue hconds =>
      obtain ⟨hk, hk', hw⟩ := hconds
      exact ⟨⟨w1, w2, w3, h1, h2, h3, h⟩, hk, hk', hw⟩
    case isFalse => cases h
  case h_2 => cases h

theorem FoldState.turn {m : Marks} (h : FoldState instrs (i + 1) m) :
    FoldState instrs (i + 2) (foldAt (widths instrs) m (i + 1)) := by
  unfold foldAt
  cases hword : foldedWord (widths instrs) m (i + 1) with
  | none =>
    refine ⟨h.length, h.keepLength, fun k hk => h.ahead k (by omega),
      fun k hk => h.aheadKeep k (by omega), fun k hk => ?_, h.rewritten⟩
    obtain ⟨j, word, hj, hji, hrest⟩ := h.deleted k hk
    exact ⟨j, word, hj, by omega, hrest⟩
  | some word =>
    obtain ⟨⟨w1, w2, w3, h1, h2, h3, htriple⟩, hk2, hk1, hws⟩ := foldedWord_some hword
    simp only [Nat.add_sub_cancel] at h1 hk1 hws ⊢
    have hfold : Folded instrs i word :=
      ⟨⟨w1, w2, w3, h.ahead i (by omega) ▸ h1, h.ahead (i + 1) (by omega) ▸ h2,
        h.ahead (i + 2) (by omega) ▸ h3, htriple⟩, hws.2.1, hws.1, hws.2.2⟩
    have hlt1 : i < m.instrs.length := (List.getElem?_eq_some_iff.mp h1).1
    have hlt3 : i + 2 < m.keep.length := by
      rw [h.keepLength, ← h.length]
      exact (List.getElem?_eq_some_iff.mp h3).1
    -- the marks of the turn
    have hkeep (k : Nat) : (((m.keep.set (i + 1) false).set (i + 2) false)[k]?) =
        if k = i + 1 ∨ k = i + 2 then some false else m.keep[k]? := by
      by_cases hk3 : k = i + 2
      · subst hk3
        rw [List.getElem?_set_self (by simpa using hlt3), if_pos (Or.inr rfl)]
      · rw [List.getElem?_set_ne (by omega)]
        by_cases hk2 : k = i + 1
        · subst hk2
          rw [List.getElem?_set_self (by omega), if_pos (Or.inl rfl)]
        · rw [List.getElem?_set_ne (by omega), if_neg (by omega)]
    have hinstr (k : Nat) : (m.instrs.set i word)[k]? =
        if k = i then some word else m.instrs[k]? := by
      by_cases hk : k = i
      · subst hk
        rw [List.getElem?_set_self hlt1, if_pos rfl]
      · rw [List.getElem?_set_ne (by omega), if_neg hk]
    refine ⟨by simp [h.length], by simp [h.keepLength], fun k hk => ?_, fun k hk => ?_,
      fun k hk => ?_, fun k => ?_⟩
    · rw [hinstr, if_neg (by omega)]
      exact h.ahead k (by omega)
    · rw [hkeep, if_neg (by omega)]
      exact h.aheadKeep k (by omega)
    · rw [hkeep] at hk
      by_cases hnew : k = i + 1 ∨ k = i + 2
      · refine ⟨i, word, hfold, by omega, hnew, ?_, ?_⟩
        · rw [hkeep, if_neg (by omega)]
          exact hk1
        · rw [hinstr, if_pos rfl]
      · rw [if_neg hnew] at hk
        -- an older deletion lies in front of this triple
        have hbefore : k ≤ i + 1 := by
          by_contra hgt
          exact h.aheadKeep k (by omega) hk
        obtain ⟨j, w, hj, hji, hkj, hjkeep, hjword⟩ := h.deleted k hk
        refine ⟨j, w, hj, by omega, hkj, ?_, ?_⟩
        · rw [hkeep, if_neg (by omega)]
          exact hjkeep
        · rw [hinstr, if_neg (by omega)]
          exact hjword
    · by_cases hk : k = i
      · subst hk
        refine Or.inr ⟨word, hfold, ?_, ?_, ?_, ?_⟩
        · rw [hinstr, if_pos rfl]
        · rw [hkeep, if_neg (by omega)]
          exact hk1
        · rw [hkeep, if_pos (Or.inl rfl)]
        · rw [hkeep, if_pos (Or.inr rfl)]
      · rw [hinstr, if_neg hk]
        rcases h.rewritten k with hsame | ⟨w, hw, hwk, hself, hd1, hd2⟩
        · exact Or.inl hsame
        · -- the triple of a rewritten word is over before this turn
          have hne : k ≠ i + 1 ∧ k ≠ i + 2 := by
            have hbound : k + 2 ≤ i + 1 := by
              by_contra hgt
              exact h.aheadKeep (k + 2) (by omega) hd2
            omega
          refine Or.inr ⟨w, hw, hwk, ?_, ?_, ?_⟩
          · rw [hkeep, if_neg (by omega)]
            exact hself
          · rw [hkeep]
            split
            · rfl
            · exact hd1
          · rw [hkeep]
            split
            · rfl
            · exact hd2

theorem foldState_turns (instrs : List Instr) (c : Nat) : FoldState instrs (c + 1)
    ((List.range' 1 c).foldl (foldAt (widths instrs))
      ⟨instrs, List.replicate instrs.length true⟩) := by
  induction c with
  | zero => exact foldState_start instrs
  | succ c ih =>
    rw [List.range'_1_concat, List.foldl_append, Nat.add_comm 1 c]
    exact ih.turn

/-! ## §6 The marks of a round -/

def keepOf (instrs : List Instr) : List Bool := (markRound instrs).keep

def foldedOf (instrs : List Instr) : List Instr := (markRound instrs).instrs

def foldMarks (instrs : List Instr) : Marks :=
  foldConstants (widths instrs) ⟨instrs, List.replicate instrs.length true⟩

theorem foldedOf_eq (instrs : List Instr) : foldedOf instrs = (foldMarks instrs).instrs := rfl

theorem foldState (instrs : List Instr) :
    FoldState instrs (instrs.length - 3 + 1) (foldMarks instrs) :=
  foldState_turns instrs (instrs.length - 3)

@[simp] theorem length_foldedOf (instrs : List Instr) : (foldedOf instrs).length = instrs.length :=
  (foldState instrs).length

@[simp] theorem length_keepOf (instrs : List Instr) : (keepOf instrs).length = instrs.length := by
  have hlen := (foldState instrs).keepLength
  rw [keepOf, markRound]
  simp only
  rw [length_spreadFrom]
  · simpa [foldMarks] using hlen
  · simpa [foldMarks] using hlen.symm

theorem keepOf_header (h : AtHeader instrs pc) (hlt : pc < instrs.length) : (keepOf instrs)[pc]? =
      ((foldMarks instrs).keep[pc]?).map fun k =>
        k && !deadBranch (widths instrs) (foldedOf instrs) pc := by
  have hlen := (foldState instrs).keepLength
  have hne := (atHeader_iff hlt).mp h
  rw [keepOf, markRound]
  simp only
  rw [spreadFrom_header (by simpa [foldMarks] using hlen.symm) (widths_header h hlt)
    (Nat.ne_of_gt (wordWidth_pos _)), List.getElem?_mapIdx]
  rfl

theorem keepOf_payload (h : AtHeader instrs pc) (hk : k < widthAt instrs pc)
    (hlt : pc + k < instrs.length) :
    (keepOf instrs)[pc + k]? = (keepOf instrs)[pc]? := by
  have hlen := (foldState instrs).keepLength
  induction k with
  | zero => rfl
  | succ k ih =>
    have hzero : (widths instrs)[pc + k + 1]? = some 0 :=
      widths_payload (k := k + 1) h (Nat.succ_pos k) hk hlt
    rw [← ih (by omega) (by omega), keepOf, markRound]
    exact spreadFrom_payload (by simpa [foldMarks] using hlen.symm) hzero

def IsSkip (op : Option Opcode) : Prop :=
  op = some .jump ∨ op = some .jumpIfFalse ∨ op = some .jumpIfTrue

theorem isSkip_of_deadBranch {h : Nat} (hdead : deadBranch ws instrs h = true) :
    ∃ word, instrs[h]? = some word ∧ IsSkip word.op := by
  unfold deadBranch at hdead
  split at hdead
  case h_1 => cases hdead
  case h_2 word hword =>
    refine ⟨word, hword, ?_⟩
    obtain ⟨-, hop⟩ := Bool.and_eq_true_iff.mp hdead
    split at hop
    case h_1 hjump => exact Or.inl hjump
    case h_2 hfalse => exact Or.inr (Or.inl hfalse)
    case h_3 htrue => exact Or.inr (Or.inr htrue)
    case h_4 => cases hop

theorem foldedOf_cases (instrs : List Instr) (k : Nat) :
    (foldedOf instrs)[k]? = instrs[k]? ∨ ∃ word, Folded instrs k word ∧
      (foldedOf instrs)[k]? = some word ∧ (keepOf instrs)[k]? = some true ∧
        (keepOf instrs)[k + 1]? = some false ∧ (keepOf instrs)[k + 2]? = some false := by
  rcases (foldState instrs).rewritten k with hsame | ⟨word, hfold, hword, hk0, hk1, hk2⟩
  · exact Or.inl hsame
  · have hlt (i : Nat) (b : Bool) (hi : (foldMarks instrs).keep[i]? = some b) :
        i < instrs.length := by
      rw [← (foldState instrs).keepLength]
      exact (List.getElem?_eq_some_iff.mp hi).1
    have hat (i : Nat) (hi : i < instrs.length) (hne : (widths instrs)[i]? ≠ some 0) :
        AtHeader instrs i := (atHeader_iff hi).mpr hne
    refine Or.inr ⟨word, hfold, hword, ?_, ?_, ?_⟩
    · rw [keepOf_header (hat k (hlt k _ hk0) (by simp [hfold.first])) (hlt k _ hk0), hk0]
      -- a literal is no branch
      have hdead : deadBranch (widths instrs) (foldedOf instrs) k = false := by
        obtain ⟨w1, w2, w3, -, -, -, htriple⟩ := hfold.words
        obtain ⟨-, -, -, v, hv⟩ := foldTriple_ops htriple
        have hop : word.op = some .loadInt := by rw [hv]; exact Instr.op_new _ _ _ _
        by_contra hne
        obtain ⟨word', hword', hskip⟩ := isSkip_of_deadBranch (by simpa using hne)
        rw [foldedOf_eq, hword, Option.some.injEq] at hword'
        rw [← hword', hop] at hskip
        rcases hskip with h | h | h <;> cases h
      simp [hdead]
    · rw [keepOf_header (hat _ (hlt _ _ hk1) (by simp [hfold.second])) (hlt _ _ hk1), hk1]
      rfl
    · rw [keepOf_header (hat _ (hlt _ _ hk2) hfold.third) (hlt _ _ hk2), hk2]
      rfl

theorem deleted_cases (h : AtHeader instrs pc) (hdel : (keepOf instrs)[pc]? = some false) :
    (∃ j word, Folded instrs j word ∧ (pc = j + 1 ∨ pc = j + 2) ∧
      (foldedOf instrs)[j]? = some word) ∨
    (foldedOf instrs)[pc]? = instrs[pc]? ∧ ∃ word, instrs[pc]? = some word ∧ IsSkip word.op := by
  have hlt : pc < instrs.length := by
    rw [← length_keepOf]
    exact (List.getElem?_eq_some_iff.mp hdel).1
  have hheader := keepOf_header h hlt
  rw [hdel] at hheader
  obtain ⟨k, hk, hand⟩ := Option.map_eq_some_iff.mp hheader.symm
  cases k with
  | false =>
    obtain ⟨j, word, hfold, -, hpc, -, hword⟩ := (foldState instrs).deleted pc hk
    exact Or.inl ⟨j, word, hfold, hpc, hword⟩
  | true =>
    obtain ⟨word, hword, hskip⟩ := isSkip_of_deadBranch (by simpa using hand)
    rcases foldedOf_cases instrs pc with hsame | ⟨_, -, -, hkept, -⟩
    · exact Or.inr ⟨hsame, word, hsame ▸ hword, hskip⟩
    · rw [hdel] at hkept
      cases hkept

end V12.Bccompiler
