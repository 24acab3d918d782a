/-
V12.Bccompiler.Survivors — which words of a stream the whole pass keeps, and
where it puts them.

The pass carries a source span with every word; with the word's own index as
its span, the spans at the end are the survivors, in order. `rank` counts the
survivors in front of an index, so it is where the pass moves that index to.
-/
import V12.Bccompiler.Round

namespace V12.Bccompiler

open V12.Bytecode

variable {σ τ : Type}
variable {i j : Nat} {c : Code σ}

/-! ## §1 Spans are carried along -/

def Code.mapSpans (f : σ → τ) (c : Code σ) : Code τ := ⟨c.instrs, c.spans.map f, c.handlers⟩

theorem compacted_mapSpans (f : σ → τ) (c : Code σ) :
    compacted (c.mapSpans f) = (compacted c).mapSpans f := by
  unfold compacted
  simp only [Code.mapSpans]
  by_cases hdel : false ∈ (markRound c.instrs).keep
  · simp only [hdel, if_true, compactCode, compact_map]
  · simp only [hdel, if_false]

theorem round_mapSpans (f : σ → τ) (c : Code σ) :
    round (c.mapSpans f) = ((round c).1.mapSpans f, (round c).2) := by
  simp only [round, compacted_mapSpans]
  rfl

theorem roundsFrom_mapSpans (f : σ → τ) (rounds : Nat) (c : Code σ) :
    roundsFrom rounds (c.mapSpans f) = (roundsFrom rounds c).mapSpans f := by
  induction rounds generalizing c with
  | zero => rfl
  | succ rounds ih =>
    simp only [roundsFrom, round_mapSpans]
    split
    · exact ih _
    · rfl

/-! ## §2 Survivors -/

def Code.tagged (c : Code σ) : Code Nat := ⟨c.instrs, List.range c.instrs.length, c.handlers⟩

/-- The words that are left after at most `rounds` rounds, by their old index. -/
def survivorsFrom (rounds : Nat) (c : Code σ) : List Nat := (roundsFrom rounds c.tagged).spans

/-- Where `survivors` puts an index: the survivors in front of it. -/
def rank (survivors : List Nat) (i : Nat) : Nat := survivors.countP fun s => s < i

def keptWords (instrs : List Instr) : List Nat :=
  compact (keepOf instrs) (List.range instrs.length)

theorem round_handlers (c : Code σ) : (round c).1.handlers =
    if false ∈ keepOf c.instrs then
      (c.handlers.map (remapHandler (keepOf c.instrs))).filter fun h => h.start < h.stop
    else c.handlers := by
  by_cases hdel : false ∈ keepOf c.instrs
  · rw [if_pos hdel]
    simp only [keepOf] at hdel
    simp only [round, compacted, hdel, if_true]
    rfl
  · rw [if_neg hdel]
    simp only [keepOf] at hdel
    simp only [round, compacted, hdel, if_false]

theorem round_spans (c : Code σ) (hspans : c.spans.length = c.instrs.length) :
    (round c).1.spans = compact (keepOf c.instrs) c.spans := by
  unfold round compacted
  simp only
  split
  · rfl
  case isFalse hnone =>
    -- nothing is deleted
    have hall : keepOf c.instrs = List.replicate c.spans.length true := by
      rw [hspans]
      refine List.eq_replicate_iff.mpr ⟨length_keepOf _, fun b hb => ?_⟩
      cases b with
      | true => rfl
      | false => exact absurd hb hnone
    rw [hall, compact]
    have hfilter : ((c.spans.zip (List.replicate c.spans.length true)).filter fun e => e.2) =
        c.spans.zip (List.replicate c.spans.length true) := by
      refine List.filter_eq_self.mpr fun e he => ?_
      have := (List.of_mem_zip he).2
      exact List.eq_of_mem_replicate this
    rw [hfilter, List.map_fst_zip (by simp)]

theorem length_keptWords (instrs : List Instr) : (keptWords instrs).length = keptCount instrs := by
  rw [keptWords, length_compact (by simp), newIndex_keepOf_length]

theorem getElem?_keptWords {instrs : List Instr} (h : (keepOf instrs)[i]? = some true) :
    (keptWords instrs)[newIndex (keepOf instrs) i]? = some i := by
  have hlt := kept_lt_length h
  rw [keptWords, getElem?_compact h, List.getElem?_range (by simpa using hlt)]

theorem keptWords_get {instrs : List Instr} (h : (keptWords instrs)[j]? = some i) :
    (keepOf instrs)[i]? = some true ∧ newIndex (keepOf instrs) i = j ∧ i < instrs.length := by
  have hj : j < newIndex (keepOf instrs) instrs.length := by
    have := (List.getElem?_eq_some_iff.mp h).1
    rwa [length_keptWords] at this
  obtain ⟨i', hi', hkeep, rfl⟩ := exists_kept hj
  rw [getElem?_keptWords hkeep, Option.some.injEq] at h
  subst h
  exact ⟨hkeep, rfl, hi'⟩

theorem keptWords_map (instrs : List Instr) :
    (List.range (keptCount instrs)).map (fun j => (keptWords instrs)[j]?.getD 0) =
      keptWords instrs := by
  rw [← length_keptWords]
  refine List.ext_getElem? fun j => ?_
  rw [List.getElem?_map]
  by_cases hj : j < (keptWords instrs).length
  · rw [List.getElem?_range hj, List.getElem?_eq_getElem hj]
    simp [List.getElem?_eq_getElem hj]
  · rw [List.getElem?_eq_none (by simpa using hj), List.getElem?_eq_none (by omega)]
    rfl

theorem length_round (c : Code σ) : (round c).1.instrs.length = keptCount c.instrs := by
  rw [round_instrs, length_roundOf]

theorem round_tagged (c : Code σ) :
    (round c.tagged).1 = (round c).1.tagged.mapSpans fun j => (keptWords c.instrs)[j]?.getD 0 := by
  have hspans : (round c.tagged).1.spans = keptWords c.instrs :=
    round_spans c.tagged (by simp [Code.tagged])
  have hinstrs : (round c.tagged).1.instrs = (round c).1.instrs := by
    rw [round_instrs, round_instrs]
    rfl
  have hhandlers : (round c.tagged).1.handlers = (round c).1.handlers := by
    rw [round_handlers, round_handlers]
    rfl
  have hmap : (List.range (round c).1.instrs.length).map (fun j => (keptWords c.instrs)[j]?.getD 0) =
      keptWords c.instrs := by
    rw [length_round, keptWords_map]
  cases hround : (round c.tagged).1 with
  | mk instrs spans handlers =>
    rw [hround] at hspans hinstrs hhandlers
    simp only at hspans hinstrs hhandlers
    simp only [Code.mapSpans, Code.tagged, Code.mk.injEq]
    exact ⟨hinstrs, hspans.trans hmap.symm, hhandlers⟩

theorem survivorsFrom_zero (c : Code σ) : survivorsFrom 0 c = List.range c.instrs.length := rfl

theorem round_tagged_changed (c : Code σ) : (round c.tagged).2 = (round c).2 := by
  rw [round_changed, round_changed]
  rfl

def roundsAfter (rounds : Nat) (c : Code σ) : Nat := if (round c).2 then rounds else 0

theorem roundsFrom_succ (rounds : Nat) (c : Code σ) :
    roundsFrom (rounds + 1) c = roundsFrom (roundsAfter rounds c) (round c).1 := by
  rw [roundsFrom, roundsAfter]
  split <;> rfl

theorem survivorsFrom_succ (rounds : Nat) (c : Code σ) :
    survivorsFrom (rounds + 1) c =
      (survivorsFrom (roundsAfter rounds c) (round c).1).map fun j =>
        (keptWords c.instrs)[j]?.getD 0 := by
  rw [survivorsFrom, roundsFrom_succ, round_tagged, roundsFrom_mapSpans]
  have hafter : roundsAfter rounds c.tagged = roundsAfter rounds c := by
    rw [roundsAfter, roundsAfter, round_tagged_changed]
  rw [hafter]
  rfl

/-! ## §3 Survivors in order -/

theorem survivorsFrom_sublist (rounds : Nat) (c : Code σ) :
    (survivorsFrom rounds c).Sublist (List.range c.instrs.length) := by
  induction rounds generalizing c with
  | zero => exact List.Sublist.refl _
  | succ rounds ih =>
    have hrest : (survivorsFrom (roundsAfter rounds c) (round c).1).Sublist
        (List.range (keptCount c.instrs)) := by
      rw [← length_round]
      unfold roundsAfter
      split
      · exact ih _
      · exact List.Sublist.refl _
    have hmap := hrest.map fun j => (keptWords c.instrs)[j]?.getD 0
    rw [keptWords_map] at hmap
    rw [survivorsFrom_succ]
    exact hmap.trans (compact_sublist _ _)

theorem survivorsFrom_sorted (rounds : Nat) (c : Code σ) :
    (survivorsFrom rounds c).Pairwise (· < ·) :=
  List.pairwise_lt_range.sublist (survivorsFrom_sublist rounds c)

theorem mem_survivorsFrom_lt {rounds : Nat} (h : i ∈ survivorsFrom rounds c) :
    i < c.instrs.length :=
  List.mem_range.mp ((survivorsFrom_sublist rounds c).subset h)

theorem rank_mono (survivors : List Nat) (h : i ≤ j) :
    rank survivors i ≤ rank survivors j :=
  List.countP_mono_left fun s _ hs => by
    simp only [decide_eq_true_eq] at hs ⊢
    omega

theorem lt_rank_iff {survivors : List Nat} (hsorted : survivors.Pairwise (· < ·))
    (hj : survivors[j]? = some i) (x : Nat) : j < rank survivors x ↔ i < x := by
  induction survivors generalizing j with
  | nil => simp at hj
  | cons s rest ih =>
    obtain ⟨hhead, htail⟩ := List.pairwise_cons.mp hsorted
    have hcons : rank (s :: rest) x = rank rest x + if s < x then 1 else 0 := by
      simp [rank, List.countP_cons]
    rw [hcons]
    cases j with
    | zero =>
      have hs : s = i := by simpa using hj
      subst hs
      by_cases hx : s < x
      · simp [hx]
      · -- nothing behind `s` is in front of `x` either
        have hzero : rank rest x = 0 := by
          refine List.countP_eq_zero.mpr fun t ht => ?_
          have := hhead t ht
          simp only [decide_eq_true_eq]
          omega
        simp [hx, hzero]
    | succ j =>
      rw [List.getElem?_cons_succ] at hj
      have hlt := hhead i (List.mem_of_getElem? hj)
      by_cases hx : s < x
      · rw [if_pos hx, ← ih htail hj]
        omega
      · rw [if_neg hx, ← ih htail hj, Nat.add_zero]
        have : ¬ j < rank rest x := by
          rw [ih htail hj]
          omega
        omega

theorem survivorsFrom_succ_get {rounds : Nat} (h : (survivorsFrom (rounds + 1) c)[j]? = some i) :
    (keepOf c.instrs)[i]? = some true ∧
      (survivorsFrom (roundsAfter rounds c) (round c).1)[j]? =
        some (newIndex (keepOf c.instrs) i) := by
  rw [survivorsFrom_succ, List.getElem?_map] at h
  obtain ⟨i₁, hi₁, hmap⟩ := Option.map_eq_some_iff.mp h
  have hlt := mem_survivorsFrom_lt (List.mem_of_getElem? hi₁)
  rw [length_round, ← length_keptWords] at hlt
  rw [List.getElem?_eq_getElem hlt, Option.getD_some] at hmap
  obtain ⟨hkeep, hindex, -⟩ := keptWords_get (hmap ▸ List.getElem?_eq_getElem hlt)
  exact ⟨hkeep, hindex ▸ hi₁⟩

theorem survivorsFrom_succ_mk {rounds : Nat} (hkeep : (keepOf c.instrs)[i]? = some true)
    (h : (survivorsFrom (roundsAfter rounds c) (round c).1)[j]? =
      some (newIndex (keepOf c.instrs) i)) :
    (survivorsFrom (rounds + 1) c)[j]? = some i := by
  rw [survivorsFrom_succ, List.getElem?_map, h, Option.map_some, getElem?_keptWords hkeep]
  rfl

theorem rank_succ (rounds : Nat) (c : Code σ) (i : Nat) :
    rank (survivorsFrom (rounds + 1) c) i =
      rank (survivorsFrom (roundsAfter rounds c) (round c).1) (newIndex (keepOf c.instrs) i) := by
  rw [survivorsFrom_succ, rank, List.countP_map, rank]
  refine List.countP_congr fun j hj => ?_
  have hlt := mem_survivorsFrom_lt hj
  rw [length_round, ← length_keptWords] at hlt
  obtain ⟨hkeep, hindex, -⟩ := keptWords_get (List.getElem?_eq_getElem hlt)
  simp only [Function.comp, List.getElem?_eq_getElem hlt, Option.getD_some, decide_eq_true_eq]
  rw [← newIndex_lt_iff hkeep, hindex]

theorem rank_range (n i : Nat) : rank (List.range n) i = min i n := by
  induction n with
  | zero => simp [rank]
  | succ n ih =>
    have hsucc : rank (List.range (n + 1)) i = rank (List.range n) i + if n < i then 1 else 0 := by
      simp [rank, List.range_succ, List.countP_append, List.countP_singleton]
    rw [hsucc, ih]
    split <;> omega

/-! ## §4 Round by round -/

/-- Every round the pass makes starts from code that meets `C`. -/
def RoundsMeet (C : Code σ → Prop) : Nat → Code σ → Prop
  | 0, _ => True
  | rounds + 1, c => C c ∧ ((round c).2 = true → RoundsMeet C rounds (round c).1)

theorem RoundsMeet.rest {C : Code σ → Prop} {rounds : Nat} (h : RoundsMeet C (rounds + 1) c) :
    RoundsMeet C (roundsAfter rounds c) (round c).1 := by
  unfold roundsAfter
  split
  case isTrue hchanged => exact h.2 hchanged
  case isFalse => exact True.intro

theorem op_round (c : Code σ) (hkeep : (keepOf c.instrs)[i]? = some true) :
    (round c).1.instrs[newIndex (keepOf c.instrs) i]?.map Instr.op = c.instrs[i]?.map Instr.op := by
  rw [round_instrs, roundOf, op_thread, op_compactedOf hkeep]

/-- **A survivor keeps its operation.** -/
theorem op_survivor (rounds : Nat) (hj : (survivorsFrom rounds c)[j]? = some i) :
    (roundsFrom rounds c).instrs[j]?.map Instr.op = c.instrs[i]?.map Instr.op := by
  have hzero {c : Code σ} {j i : Nat} (hj : (survivorsFrom 0 c)[j]? = some i) : j = i := by
    rw [survivorsFrom_zero] at hj
    obtain ⟨hlt, hget⟩ := List.getElem?_eq_some_iff.mp hj
    simpa using hget
  induction rounds generalizing c j i with
  | zero => rw [hzero hj]; rfl
  | succ rounds ih =>
    obtain ⟨hkeep, hrest⟩ := survivorsFrom_succ_get hj
    rw [roundsFrom_succ, ← op_round c hkeep]
    unfold roundsAfter at hrest ⊢
    split at hrest
    case isTrue hchanged =>
      rw [if_pos hchanged]
      exact ih hrest
    case isFalse hsame =>
      rw [if_neg hsame, hzero hrest]
      rfl

end V12.Bccompiler
