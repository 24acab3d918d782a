/-
V12.Heap.DenseEntries — `ElementsArray::dense_entries`: the index-value pairs of
an element store in ascending order.

Each pair is what a read of its index answers, and every answer is among them
(`mem_denseEntries`); a dictionary lists the holes it stores, too.
-/
import V12.Heap.ElementsSnapshot

namespace V12.Heap

open JsValue

namespace ElementsStorage

/-- `ElementsArray::dense_entries`. -/
def denseEntries : ElementsStorage → List (Nat × JsValue)
  | .packedSmi v => pairs (v.map smiValue)
  | .packedDouble v => pairs (v.map fromF64)
  | .packedObject v => pairs v
  | .holeySmi v | .holeyDouble v | .holeyObject v => presentPairs v
  | .dictionary dict => dict.entries.mergeSort fun a b => decide (a.1 ≤ b.1)

theorem mem_pairs {l : List JsValue} {i : Nat} {v : JsValue} : (i, v) ∈ pairs l ↔ l[i]? = some v := by
  unfold pairs
  rw [List.mem_map]
  constructor
  · rintro ⟨⟨u, k⟩, hmem, heq⟩
    cases heq
    exact List.mem_zipIdx_iff_getElem?.mp hmem
  · intro h
    exact ⟨(v, i), List.mem_zipIdx_iff_getElem?.mpr h, rfl⟩

theorem mem_presentPairs {l : List JsValue} {i : Nat} {v : JsValue} :
    (i, v) ∈ presentPairs l ↔ l[i]?.filter (fun u => !u.isHole) = some v := by
  unfold presentPairs
  rw [List.mem_map, Option.filter_eq_some_iff]
  constructor
  · rintro ⟨⟨u, k⟩, hmem, heq⟩
    cases heq
    obtain ⟨hmem, hhole⟩ := List.mem_filter.mp hmem
    exact ⟨List.mem_zipIdx_iff_getElem?.mp hmem, hhole⟩
  · rintro ⟨hget, hhole⟩
    exact ⟨(v, i), List.mem_filter.mpr ⟨List.mem_zipIdx_iff_getElem?.mpr hget, hhole⟩, rfl⟩

/-- **The entries are what the reads answer.** -/
theorem mem_denseEntries {e : ElementsStorage} (h : e.Built) {i : Nat} {v : JsValue} :
    (i, v) ∈ e.denseEntries ↔ e.getBoxed i = some v := by
  cases e with
  | packedSmi l => rw [denseEntries, mem_pairs, List.getElem?_map, getBoxed]
  | packedDouble l => rw [denseEntries, mem_pairs, List.getElem?_map, getBoxed]
  | packedObject l => rw [denseEntries, mem_pairs, getBoxed]
  | holeySmi l => rw [denseEntries, mem_presentPairs, getBoxed]
  | holeyDouble l => rw [denseEntries, mem_presentPairs, getBoxed]
  | holeyObject l => rw [denseEntries, mem_presentPairs, getBoxed]
  | dictionary dict =>
    rw [denseEntries, List.mem_mergeSort, getBoxed]
    constructor
    · exact ElementsDictionary.Entered.get_of_mem h
    · intro hget
      obtain ⟨before, behind, hentries, -⟩ := List.lookup_eq_some_iff.mp hget
      rw [hentries]
      exact List.mem_append_right before List.mem_cons_self

theorem pairwise_zipIdx (l : List JsValue) : l.zipIdx.Pairwise fun a b => a.2 < b.2 := by
  rw [← List.pairwise_map (f := Prod.snd), List.zipIdx_map_snd]
  exact List.pairwise_lt_range'

theorem pairwise_pairs (l : List JsValue) : (pairs l).Pairwise fun a b => a.1 < b.1 := by
  unfold pairs
  rw [List.pairwise_map]
  exact pairwise_zipIdx l

theorem pairwise_presentPairs (l : List JsValue) :
    (presentPairs l).Pairwise fun a b => a.1 < b.1 := by
  unfold presentPairs
  rw [List.pairwise_map]
  exact (pairwise_zipIdx l).filter _

theorem pairwise_denseEntries {e : ElementsStorage} (h : e.Built) :
    e.denseEntries.Pairwise fun a b => a.1 < b.1 := by
  cases e with
  | packedSmi l => exact pairwise_pairs _
  | packedDouble l => exact pairwise_pairs _
  | packedObject l => exact pairwise_pairs _
  | holeySmi l => exact pairwise_presentPairs _
  | holeyDouble l => exact pairwise_presentPairs _
  | holeyObject l => exact pairwise_presentPairs _
  | dictionary dict =>
    have hsorted : (dict.entries.mergeSort fun a b => decide (a.1 ≤ b.1)).Pairwise
        fun a b => decide (a.1 ≤ b.1) = true :=
      List.pairwise_mergeSort (fun a b c hab hbc => decide_eq_true ((of_decide_eq_true hab).trans
        (of_decide_eq_true hbc))) (fun a b => by
          rw [Bool.or_eq_true, decide_eq_true_eq, decide_eq_true_eq]
          exact Nat.le_total _ _) _
    have hnodup : (dict.entries.mergeSort fun a b => decide (a.1 ≤ b.1)).Pairwise
        fun a b => a.1 ≠ b.1 := by
      have hkeys := h.nodup
      unfold ElementsDictionary.keys List.Nodup at hkeys
      rw [List.pairwise_map] at hkeys
      exact hkeys.perm (List.mergeSort_perm _ _).symm fun hab => hab.symm
    exact (hsorted.and hnodup).imp fun hab =>
      Nat.lt_of_le_of_ne (of_decide_eq_true hab.1) hab.2

end ElementsStorage

end V12.Heap
