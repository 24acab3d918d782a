/-
V12.Lib.OrderedMap — maps that list their keys in the order of first
definition.

A map is a list of pairs. A definition goes to the pair of its key, in place,
or to a new pair at the end. `build_eq_iff` says when two sequences of
definitions make one map: their keys come up in the same order, and under each
key the definitions come to the same.
-/
import V12.Lib.Assoc
import Mathlib.Data.List.Nodup

namespace Lib

variable {κ α δ : Type*} [DecidableEq κ]
variable {k : κ} {m : List (κ × α)}

/-- The value under `k` becomes `f` of itself, or of nothing in a new pair. -/
def alter (f : Option α → α) (k : κ) : List (κ × α) → List (κ × α)
  | [] => [(k, f none)]
  | (k', a) :: rest => if k' = k then (k', f (some a)) :: rest else (k', a) :: alter f k rest

theorem lookup_alter (f : Option α → α) (k k' : κ) (m : List (κ × α)) :
    (alter f k m).lookup k' = if k' = k then some (f (m.lookup k)) else m.lookup k' := by
  induction m with
  | nil =>
    by_cases h : k' = k
    · simp [alter, h]
    · have hne : (k' == k) = false := by simp [h]
      simp [alter, List.lookup_cons, hne, h]
  | cons e m ih =>
    obtain ⟨a, b⟩ := e
    by_cases ha : a = k
    · subst ha
      by_cases h : k' = a
      · simp [alter, h]
      · have hne : (k' == a) = false := by simp [h]
        simp [alter, List.lookup_cons, hne, h]
    · by_cases h : k' = a
      · subst h
        simp [alter, ha]
      · have hne : (k' == a) = false := by simp [h]
        have hna : (k == a) = false := by simp [Ne.symm ha]
        simp [alter, ha, List.lookup_cons, hne, hna, ih]

theorem lookup_alter_self (f : Option α → α) (k : κ) (m : List (κ × α)) :
    (alter f k m).lookup k = some (f (m.lookup k)) := by
  rw [lookup_alter, if_pos rfl]

theorem lookup_alter_of_ne (f : Option α → α) {k' : κ} (h : k' ≠ k) (m : List (κ × α)) :
    (alter f k m).lookup k' = m.lookup k' := by
  rw [lookup_alter, if_neg h]

theorem alter_congr {f g : Option α → α} (h : f (m.lookup k) = g (m.lookup k)) :
    alter f k m = alter g k m := by
  induction m with
  | nil => exact congrArg (fun a => [(k, a)]) h
  | cons e m ih =>
    obtain ⟨a, b⟩ := e
    by_cases ha : a = k
    · rw [ha, List.lookup_cons_self] at h
      rw [alter, alter, if_pos ha, if_pos ha, h]
    · have hne : (k == a) = false := by simp [Ne.symm ha]
      rw [List.lookup_cons, hne] at h
      rw [alter, alter, if_neg ha, if_neg ha, ih h]

def addKey (keys : List κ) (k : κ) : List κ := if k ∈ keys then keys else keys ++ [k]

theorem keys_alter (f : Option α → α) (k : κ) (m : List (κ × α)) :
    (alter f k m).map Prod.fst = addKey (m.map Prod.fst) k := by
  unfold addKey
  induction m with
  | nil => simp [alter]
  | cons e m ih =>
    obtain ⟨a, b⟩ := e
    by_cases ha : a = k
    · simp [alter, ha]
    · have hmem : k ∈ ((a, b) :: m).map Prod.fst ↔ k ∈ m.map Prod.fst := by
        simp [Ne.symm ha]
      rw [alter, if_neg ha, List.map_cons, ih]
      by_cases hk : k ∈ m.map Prod.fst
      · rw [if_pos hk, if_pos (hmem.mpr hk), List.map_cons]
      · rw [if_neg hk, if_neg (fun h => hk (hmem.mp h)), List.map_cons, List.cons_append]

theorem nodup_addKey {keys : List κ} (h : keys.Nodup) (k : κ) : (addKey keys k).Nodup := by
  unfold addKey
  split
  case isTrue => exact h
  case isFalse hk =>
    refine List.Nodup.append h (List.nodup_singleton k) ?_
    intro a ha hak
    rw [List.mem_singleton] at hak
    exact hk (hak ▸ ha)

theorem lookup_eq_none_iff :
    m.lookup k = none ↔ k ∉ m.map Prod.fst := by
  rw [List.lookup_eq_none_iff]
  constructor
  · intro h hk
    obtain ⟨p, hp, rfl⟩ := List.mem_map.mp hk
    exact absurd (h p hp) (by simp)
  · intro h p hp
    simp only [bne_iff_ne, ne_eq]
    intro heq
    exact h (List.mem_map.mpr ⟨p, hp, heq.symm⟩)

theorem alter_of_lookup_none (f : Option α → α) (h : m.lookup k = none) :
    alter f k m = m ++ [(k, f none)] := by
  induction m with
  | nil => rfl
  | cons e m ih =>
    obtain ⟨a, b⟩ := e
    by_cases ha : k = a
    · subst ha
      simp at h
    · have hne : (k == a) = false := by simp [ha]
      rw [List.lookup_cons, hne] at h
      rw [alter, if_neg (Ne.symm ha), ih h, List.cons_append]

theorem alter_alter (f g : Option α → α) (k : κ) (m : List (κ × α)) :
    alter f k (alter g k m) = alter (fun a => f (some (g a))) k m := by
  induction m with
  | nil => simp [alter]
  | cons e m ih =>
    obtain ⟨a, b⟩ := e
    by_cases ha : a = k
    · simp [alter, ha]
    · simp [alter, ha, ih]

theorem eq_of_lookup {m' : List (κ × α)} (hm : (m.map Prod.fst).Nodup)
    (hkeys : m.map Prod.fst = m'.map Prod.fst) (h : ∀ k, m.lookup k = m'.lookup k) : m = m' := by
  induction m generalizing m' with
  | nil => exact (List.map_eq_nil_iff.mp hkeys.symm).symm
  | cons e m ih =>
    obtain ⟨a, b⟩ := e
    obtain ⟨⟨a', b'⟩, rest, rfl, ha, hrest⟩ := List.map_eq_cons_iff.mp hkeys.symm
    obtain ⟨hnot, hkeep⟩ := List.nodup_cons.mp hm
    simp only at ha hnot
    subst ha
    have hb := h a'
    rw [List.lookup_cons_self, List.lookup_cons_self, Option.some.injEq] at hb
    rw [hb, ih hkeep hrest.symm]
    intro k
    by_cases hk : k = a'
    · -- the head's key is in neither rest
      rw [hk, lookup_eq_none_iff.mpr hnot, lookup_eq_none_iff.mpr (hrest ▸ hnot)]
    · have hne : (k == a') = false := by simp [hk]
      have hlook := h k
      rw [List.lookup_cons, List.lookup_cons, hne] at hlook
      exact hlook

/-! ## Sequences of definitions -/

section Build

variable (c : Option α → δ → α)
variable {k : κ} {defs : List (κ × δ)}

def build (defs : List (κ × δ)) (m : List (κ × α)) : List (κ × α) :=
  defs.foldl (fun m d => alter (fun a => c a d.2) d.1 m) m

@[simp] theorem build_nil (m : List (κ × α)) : build c [] m = m := rfl

@[simp] theorem build_cons (d : κ × δ) (defs : List (κ × δ)) (m : List (κ × α)) :
    build c (d :: defs) m = build c defs (alter (fun a => c a d.2) d.1 m) := rfl

theorem build_append (defs defs' : List (κ × δ)) (m : List (κ × α)) :
    build c (defs ++ defs') m = build c defs' (build c defs m) := List.foldl_append

theorem build_of_key (d : κ × δ) (defs : List (κ × δ)) (hd : d.1 = k) (h : ∀ e ∈ defs, e.1 = k)
    (m : List (κ × α)) :
    build c (d :: defs) m =
      alter (fun a => defs.foldl (fun x e => c (some x) e.2) (c a d.2)) k m := by
  induction defs generalizing d m with
  | nil =>
    rw [build_cons, build_nil, hd]
    rfl
  | cons e defs ih =>
    rw [build_cons, ih e (h e List.mem_cons_self) fun e' he' => h e' (List.mem_cons_of_mem e he'),
      hd, alter_alter]
    rfl

def settle (k : κ) (a : Option α) (defs : List (κ × δ)) : Option α :=
  (defs.filter fun d => d.1 = k).foldl (fun a d => some (c a d.2)) a

theorem settle_cons (k : κ) (a : Option α) (d : κ × δ) (defs : List (κ × δ)) :
    settle c k a (d :: defs) =
      if d.1 = k then settle c k (some (c a d.2)) defs else settle c k a defs := by
  unfold settle
  by_cases hk : d.1 = k
  · rw [if_pos hk, List.filter_cons_of_pos (by simp [hk])]
    rfl
  · rw [if_neg hk, List.filter_cons_of_neg (by simp [hk])]

theorem settle_congr {defs' : List (κ × δ)}
    (h : defs.filter (fun d => d.1 = k) = defs'.filter fun d => d.1 = k) (a : Option α) :
    settle c k a defs = settle c k a defs' := by
  unfold settle
  rw [h]

theorem settle_of_not_mem (h : k ∉ defs.map Prod.fst) (a : Option α) : settle c k a defs = a := by
  have hnil : defs.filter (fun d => d.1 = k) = [] := by
    refine List.filter_eq_nil_iff.mpr fun d hd => ?_
    rw [decide_eq_true_eq]
    exact fun heq => h (List.mem_map.mpr ⟨d, hd, heq⟩)
  unfold settle
  rw [hnil]
  rfl

theorem filter_key_of_part {p : κ × δ → Bool} (h : ∀ d ∈ defs, d.1 = k → p d = true) :
    defs.filter (fun d => d.1 = k) = (defs.filter p).filter fun d => d.1 = k := by
  rw [List.filter_filter]
  refine List.filter_congr fun d hd => ?_
  by_cases hk : d.1 = k
  · rw [h d hd hk, Bool.and_true]
  · rw [decide_eq_false hk, Bool.false_and]

theorem lookup_build (k : κ) (defs : List (κ × δ)) (m : List (κ × α)) :
    (build c defs m).lookup k = settle c k (m.lookup k) defs := by
  unfold settle
  induction defs generalizing m with
  | nil => rfl
  | cons d defs ih =>
    rw [build_cons, ih]
    by_cases hk : d.1 = k
    · rw [List.filter_cons_of_pos (by simp [hk]), List.foldl_cons, lookup_alter, if_pos hk.symm, hk]
    · rw [List.filter_cons_of_neg (by simp [hk]), lookup_alter_of_ne _ (Ne.symm hk)]

def firstKeys (keys : List κ) : List κ := keys.foldl addKey []

theorem keys_build (defs : List (κ × δ)) (m : List (κ × α)) :
    (build c defs m).map Prod.fst = (defs.map Prod.fst).foldl addKey (m.map Prod.fst) := by
  induction defs generalizing m with
  | nil => rfl
  | cons d defs ih => rw [build_cons, ih, keys_alter, List.map_cons, List.foldl_cons]

theorem nodup_build {m : List (κ × α)} (hm : (m.map Prod.fst).Nodup) :
    ((build c defs m).map Prod.fst).Nodup := by
  induction defs generalizing m with
  | nil => exact hm
  | cons d defs ih =>
    refine ih ?_
    rw [keys_alter]
    exact nodup_addKey hm d.1

/-- **When two sequences of definitions make one map.** -/
theorem build_eq_iff (defs defs' : List (κ × δ)) :
    build c defs [] = build c defs' [] ↔
      firstKeys (defs.map Prod.fst) = firstKeys (defs'.map Prod.fst) ∧
        ∀ k, settle c k none defs = settle c k none defs' := by
  have hkeys : ∀ ds : List (κ × δ), (build c ds []).map Prod.fst = firstKeys (ds.map Prod.fst) :=
    fun ds => keys_build c ds []
  constructor
  · intro h
    refine ⟨by rw [← hkeys, ← hkeys, h], fun k => ?_⟩
    have hlook := congrArg (List.lookup k) h
    rw [lookup_build, lookup_build] at hlook
    exact hlook
  · rintro ⟨hfirst, hsettle⟩
    refine eq_of_lookup (nodup_build c List.nodup_nil) (by rw [hkeys, hkeys, hfirst]) fun k => ?_
    rw [lookup_build, lookup_build]
    exact hsettle k

end Build

end Lib
