/-
V12.Interp.ArraySortTheorems — sorting an array is right, while its comparator
returns no number between 0 and 1 and leaves the array long enough.

The condition (§1) is on the calls that the sort makes: on their answers, and on
the array as the last of them leaves it. The loops are followed once for any
comparator, and once for a consistent one (§2). The write-back puts the values in
front, whichever way it takes (§3).
-/
import V12.Interp.ArraySort

namespace V12.Interp.ArraySort

open V12.Heap V12.Heap.JsValue V12.Interp Lib Lib.Binary64

variable {U E : Type*}

/-! ## §1 The condition -/

def AtLeastOne (r : Value) : Prop :=
  match r.1 with
  | .smi n => 0 < n
  | .double x => ¬ IsNaN x ∧ negative x = false ∧ unitsPerOne ≤ units x
  | _ => False

/-- The calls of `findPlace`, each in the state it is made in. -/
def placeCalls (cmp : Comparator U E) (sorted : List Value) (v : Value) (w : World U)
    (lo hi : Nat) : List (World U × Value × Value) :=
  if _h : lo < hi then
    let mid := (lo + hi) / 2
    let a := sorted.getD mid .undefined
    (w, a, v) ::
      match cmp w a v with
      | (_, .error _) => []
      | (w', .ok r) =>
        if decision r ≤ 0 then placeCalls cmp sorted v w' (mid + 1) hi
        else placeCalls cmp sorted v w' lo mid
  else []
termination_by hi - lo

/-- The calls of `insertAll`. -/
def insertCalls (cmp : Comparator U E) (w : World U) (sorted : List Value) :
    List Value → List (World U × Value × Value)
  | [] => []
  | v :: rest =>
    placeCalls cmp sorted v w 0 sorted.length ++
      match findPlace cmp sorted v w 0 sorted.length with
      | (_, .error _) => []
      | (w', .ok lo) => insertCalls cmp w' (sorted.insertIdx lo v) rest

/-- The answer of a call is a number of at least 1, if it stands for a positive one. -/
def CallFits (toNumber : Value → BitVec 64) (cmp : Comparator U E) (c : World U × Value × Value) :
    Prop :=
  ∀ r, (cmp c.1 c.2.1 c.2.2).2 = .ok r → IsPositive (fullNumber toNumber r) → AtLeastOne r

/-- An array without holes has no less `length` than before, one with holes takes the values, and
there is no element from `MAX_CALLBACK_SCAN` on. -/
structure Keeps (w w' : World U) : Prop where
  length : (present w.array).length = callbackLen w.array → callbackLen w.array ≤ w'.array.length
  takes : (present w.array).length ≠ callbackLen w.array →
    ∀ i < (present w.array).length, w'.array.takes i = true
  scanned : ∀ i, MAX_CALLBACK_SCAN ≤ i → i < w.array.length → w'.array.elements i = none

/-- The calls that the sort makes have answers that fit, and leave the array fit for the
write-back, unless the last of them throws. -/
structure Fits (toNumber : Value → BitVec 64) (cmp : Comparator U E) (w : World U) : Prop where
  answers : ∀ c ∈ insertCalls cmp w [] (defined w.array), CallFits toNumber cmp c
  scanned : ∀ w' sorted, insertAll cmp w [] (defined w.array) = (w', .ok sorted) →
    ∀ i, MAX_CALLBACK_SCAN ≤ i → i < w.array.length → w.array.elements i = none
  keeps : ∀ w' sorted, insertAll cmp w [] (defined w.array) = (w', .ok sorted) → Keeps w w'

/-! ## §2 The loops -/

theorem castI64_pos {x : BitVec 64} (h : 0 < castI64 x) : IsPositive x := by
  unfold castI64 at h
  by_cases hnan : IsNaN x
  · rw [if_pos hnan] at h
    omega
  rw [if_neg hnan] at h
  by_cases hfinite : IsFinite x
  · rw [if_pos hfinite] at h
    have htrunc : 0 < trunc x := by omega
    unfold trunc at htrunc
    by_cases hneg : negative x = true
    · rw [if_pos hneg] at htrunc
      have := Int.natCast_nonneg (units x / unitsPerOne)
      exact absurd htrunc (by linarith)
    · rw [if_neg hneg] at htrunc
      refine ⟨hnan, by simpa using hneg, fun hzero => ?_⟩
      rw [hzero] at htrunc
      simp at htrunc
  · rw [if_neg hfinite] at h
    by_cases hneg : negative x = true
    · rw [if_pos hneg] at h
      omega
    · have hexp : exponent x = 2047 := not_not.mp hfinite
      refine ⟨hnan, by simpa using hneg, ?_⟩
      unfold units significand
      rw [hexp, if_neg (by decide)]
      positivity

theorem positive_of_decision (toNumber : Value → BitVec 64) {r : Value} (h : 0 < decision r) :
    IsPositive (fullNumber toNumber r) := by
  obtain ⟨r, hr⟩ := r
  unfold decision at h
  cases r with
  | smi n =>
    have hn : 0 < n := h
    have hmax : n ≤ SMI_MAX := hr.2
    unfold SMI_MAX at hmax
    obtain ⟨hfinite, hneg, hunits⟩ := f64OfInt_exact (n := n) (by omega)
    have hpositive : IsPositive (f64OfInt n) := by
      refine ⟨fun hnan => hfinite hnan.1, by simpa [hneg] using hn.le, ?_⟩
      rw [hunits]
      exact Nat.mul_ne_zero (by omega) (Nat.ne_of_gt unitsPerOne_pos)
    exact hpositive
  | double x => exact castI64_pos h
  | _ => exact absurd h (Int.lt_irrefl 0)

theorem decision_of_atLeastOne {r : Value} (h : AtLeastOne r) : 0 < decision r := by
  obtain ⟨r, hr⟩ := r
  cases r with
  | smi n => exact h
  | double x =>
    obtain ⟨hnan, hneg, hle⟩ := h
    have hcast : 0 < castI64 x := by
      unfold castI64
      rw [if_neg hnan]
      by_cases hfinite : IsFinite x
      · have hquot : 1 ≤ units x / unitsPerOne := (Nat.one_le_div_iff unitsPerOne_pos).mpr hle
        rw [if_pos hfinite, trunc, if_neg (by simp [hneg])]
        omega
      · rw [if_neg hfinite, if_neg (by simp [hneg])]
        decide
    exact hcast
  | _ => exact absurd h id

theorem findPlace_spec (cmp : Comparator U E) (w₀ : World U) (sorted : List Value) (v : Value)
    (w : World U) (lo hi : Nat) (hw : Reached cmp w₀ w) (hlohi : lo ≤ hi) :
    Reached cmp w₀ (findPlace cmp sorted v w lo hi).1 ∧
      ∀ n, (findPlace cmp sorted v w lo hi).2 = .ok n → n ≤ hi := by
  fun_induction findPlace cmp sorted v w lo hi with
  | case1 w lo hi h mid w' e hcall =>
    refine ⟨?_, fun n hn => by cases hn⟩
    have hnext := hw.call (sorted.getD mid .undefined) v
    rw [hcall] at hnext
    exact hnext
  | case2 w lo hi h mid w' r hcall hdecision ih =>
    have hnext := hw.call (sorted.getD mid .undefined) v
    rw [hcall] at hnext
    exact ih hnext (by omega)
  | case3 w lo hi h mid w' r hcall hdecision ih =>
    have hnext := hw.call (sorted.getD mid .undefined) v
    rw [hcall] at hnext
    obtain ⟨hreached, hle⟩ := ih hnext (by omega)
    exact ⟨hreached, fun n hn => (hle n hn).trans (by omega)⟩
  | case4 w lo hi h =>
    refine ⟨hw, fun n hn => ?_⟩
    cases hn
    exact hlohi

theorem insertAll_spec (cmp : Comparator U E) (w₀ : World U) (values sorted : List Value)
    (w : World U) (hw : Reached cmp w₀ w) : Reached cmp w₀ (insertAll cmp w sorted values).1 ∧
      ∀ out, (insertAll cmp w sorted values).2 = .ok out → out.Perm (sorted ++ values) := by
  induction values generalizing w sorted with
  | nil =>
    refine ⟨hw, fun out hout => ?_⟩
    cases hout
    rw [List.append_nil]
  | cons v rest ih =>
    have hplace := findPlace_spec cmp w₀ sorted v w 0 sorted.length hw (Nat.zero_le _)
    rw [insertAll]
    generalize findPlace cmp sorted v w 0 sorted.length = found at hplace ⊢
    obtain ⟨w', answer⟩ := found
    cases answer with
    | error e => exact ⟨hplace.1, fun out hout => by cases hout⟩
    | ok lo =>
      obtain ⟨hreached, hperm⟩ := ih (sorted.insertIdx lo v) w' hplace.1
      refine ⟨hreached, fun out hout => (hperm out hout).trans ?_⟩
      have hinsert := List.perm_insertIdx v sorted (hplace.2 lo rfl)
      exact (hinsert.append_right rest).trans List.perm_middle.symm

section Order

variable {toNumber : Value → BitVec 64} {cmp : Comparator U E} {w₀ : World U}
  {values : List Value} {f : Value → Value → Value} {le : Value → Value → Bool}

theorem decision_iff (h : Consistent toNumber cmp values f le) {a b : Value} (ha : a ∈ values)
    (hb : b ∈ values) {w : World U} (hfits : CallFits toNumber cmp (w, a, b)) :
    decision (f a b) ≤ 0 ↔ le a b = true := by
  constructor
  · intro hle
    by_contra hnot
    have hpos := (h.positive a ha b hb).mpr (by simpa using hnot)
    have := decision_of_atLeastOne (hfits (f a b) (h.returns w a ha b hb) hpos)
    omega
  · intro hle
    by_contra hnot
    have hpos := positive_of_decision toNumber (r := f a b) (by omega)
    rw [(h.positive a ha b hb).mp hpos] at hle
    exact absurd hle (by simp)

variable (h : Consistent toNumber cmp values f le)

include h

theorem findPlace_place {sorted : List Value} {v : Value} (hsorted : ∀ x ∈ sorted, x ∈ values)
    (hv : v ∈ values) (hpair : sorted.Pairwise fun a b => le a b = true) (w : World U) (lo hi : Nat)
    (hlohi : lo ≤ hi) (hbetween : IsBetween le sorted v lo hi)
    (hfits : ∀ c ∈ placeCalls cmp sorted v w lo hi, CallFits toNumber cmp c) :
    ∃ n, (findPlace cmp sorted v w lo hi).2 = .ok n ∧ IsPlace le sorted v n := by
  have hcalls {mid : Nat} (hmid : mid < sorted.length) (w : World U) :
      (cmp w (sorted.getD mid .undefined) v).2 = .ok (f sorted[mid] v) := by
    rw [List.getD_eq_getElem?_getD, List.getElem?_eq_getElem hmid, Option.getD_some]
    exact h.returns w _ (hsorted _ (List.getElem_mem hmid)) v hv
  -- the first call fits, and so do those behind it
  have hfirst {w w' : World U} {lo hi : Nat} {r : Value} (hlt : lo < hi)
      (hmid : (lo + hi) / 2 < sorted.length)
      (hcall : cmp w (sorted.getD ((lo + hi) / 2) .undefined) v = (w', .ok r))
      (hfits : ∀ c ∈ placeCalls cmp sorted v w lo hi, CallFits toNumber cmp c) :
      CallFits toNumber cmp (w, sorted[(lo + hi) / 2], v) ∧
        ∀ c ∈ (if decision r ≤ 0 then placeCalls cmp sorted v w' ((lo + hi) / 2 + 1) hi
          else placeCalls cmp sorted v w' lo ((lo + hi) / 2)), CallFits toNumber cmp c := by
    rw [placeCalls, dif_pos hlt] at hfits
    simp only [hcall] at hfits
    obtain ⟨hfit, hrest⟩ := List.forall_mem_cons.mp hfits
    rw [List.getD_eq_getElem?_getD, List.getElem?_eq_getElem hmid, Option.getD_some] at hfit
    exact ⟨hfit, hrest⟩
  fun_induction findPlace cmp sorted v w lo hi with
  | case1 w lo hi hlt mid w' e hcall =>
    have hmid : mid < sorted.length := by
      have := hbetween.le_length
      omega
    have hanswer := hcalls hmid w
    rw [hcall] at hanswer
    cases hanswer
  | case2 w lo hi hlt mid w' r hcall hdecision ih =>
    have hmid : mid < sorted.length := by
      have := hbetween.le_length
      omega
    have hanswer := hcalls hmid w
    rw [hcall] at hanswer
    cases hanswer
    obtain ⟨hfit, hrest⟩ := hfirst hlt hmid hcall hfits
    have hle := (decision_iff h (hsorted _ (List.getElem_mem hmid)) hv hfit).mp hdecision
    rw [if_pos hdecision] at hrest
    exact ih (by omega) (hbetween.upper h.preorder hsorted hv hpair hmid hle) hrest
  | case3 w lo hi hlt mid w' r hcall hdecision ih =>
    have hmid : mid < sorted.length := by
      have := hbetween.le_length
      omega
    have hanswer := hcalls hmid w
    rw [hcall] at hanswer
    cases hanswer
    obtain ⟨hfit, hrest⟩ := hfirst hlt hmid hcall hfits
    have hle := (decision_iff h (hsorted _ (List.getElem_mem hmid)) hv hfit).not.mp hdecision
    rw [if_neg hdecision] at hrest
    exact ih (by omega) (hbetween.lower h.preorder hsorted hv hpair hmid (by simpa using hle)) hrest
  | case4 w lo hi hlt => exact ⟨lo, rfl, hbetween.place hlohi hlt⟩

/-- **The loop over the values** of a consistent comparator: every value goes behind its equals. -/
theorem insertAll_sorted (rest sorted : List Value) (hrest : ∀ x ∈ rest, x ∈ values)
    (hsorted : ∀ x ∈ sorted, x ∈ values) (hpair : sorted.Pairwise fun a b => le a b = true)
    (w : World U) (hfits : ∀ c ∈ insertCalls cmp w sorted rest, CallFits toNumber cmp c) :
    ∃ out, (insertAll cmp w sorted rest).2 = .ok out ∧
      (out.Pairwise fun a b => le a b = true) ∧
      ∀ a ∈ values, out.filter (tied le a) = (sorted ++ rest).filter (tied le a) := by
  induction rest generalizing sorted w with
  | nil => exact ⟨sorted, rfl, hpair, fun a _ => by rw [List.append_nil]⟩
  | cons v rest ih =>
    have hv := hrest v (.head rest)
    rw [insertCalls] at hfits
    obtain ⟨hhere, hthere⟩ := List.forall_mem_append.mp hfits
    obtain ⟨n, hfind, hplace⟩ := findPlace_place h hsorted hv hpair w 0 sorted.length
      (Nat.zero_le _) (isBetween_all le sorted v) hhere
    rw [insertAll]
    generalize findPlace cmp sorted v w 0 sorted.length = found at hfind hthere ⊢
    obtain ⟨w', answer⟩ := found
    cases hfind
    have hinserted : ∀ x ∈ sorted.insertIdx n v, x ∈ values := by
      intro x hx
      rcases (List.mem_insertIdx hplace.le_length).mp hx with rfl | hmem
      · exact hv
      · exact hsorted x hmem
    obtain ⟨out, hout, hpair', hstable⟩ := ih (sorted.insertIdx n v)
      (fun x hx => hrest x (.tail v hx)) hinserted
      (pairwise_insertIdx h.preorder hsorted hv hplace hpair) w' hthere
    refine ⟨out, hout, hpair', fun a ha => ?_⟩
    rw [hstable a ha, List.filter_append, filter_insertIdx h.preorder hsorted hv hplace ha,
      ← List.filter_append, List.append_assoc]
    rfl

end Order

/-! ## §3 The values, and the write-back -/

theorem filterMap_range_add {α : Type*} {g : Nat → Option α} {m : Nat} (k : Nat)
    (h : ∀ i, m ≤ i → i < m + k → g i = none) :
    (List.range (m + k)).filterMap g = (List.range m).filterMap g := by
  induction k with
  | zero => rfl
  | succ k ih =>
    rw [← Nat.add_assoc, List.range_succ, List.filterMap_append, ih fun i hi hlt => h i hi (by omega)]
    simp [h (m + k) (by omega) (by omega)]

theorem present_eq {a : Arr} (h : ∀ i, MAX_CALLBACK_SCAN ≤ i → i < a.length → a.elements i = none) :
    present a = allValues a := by
  unfold present allValues callbackLen
  rcases Nat.le_total a.length MAX_CALLBACK_SCAN with hle | hge
  · rw [Nat.min_eq_left hle]
  · obtain ⟨k, hk⟩ := Nat.exists_eq_add_of_le hge
    rw [Nat.min_eq_right hge, hk]
    exact (filterMap_range_add k fun i hi hlt => h i hi (by omega)).symm

theorem filter_isUndefined (values : List Value) : values.filter Value.isUndefined =
    List.replicate (values.filter Value.isUndefined).length Value.undefined := by
  refine List.eq_replicate_of_mem fun v hv => ?_
  have hundefined := (List.mem_filter.mp hv).2
  exact Subtype.ext (of_decide_eq_true hundefined)

theorem perm_present (a : Arr) {out : List Value} (hout : out.Perm (defined a)) :
    (out ++ List.replicate (undefinedCount a) Value.undefined).Perm (present a) := by
  rw [undefinedCount, ← filter_isUndefined]
  refine (hout.append_right _).trans (List.perm_append_comm.trans ?_)
  exact List.filter_append_perm Value.isUndefined (present a)

theorem length_present_le (a : Arr) : (present a).length ≤ callbackLen a := by
  have hle := List.length_filterMap_le a.elements (List.range (callbackLen a))
  rwa [List.length_range] at hle

/-- Where the array takes every value, all are written, and `length` reaches them. -/
theorem writeFrom_spec (values : List Value) (k : Nat) (a : Arr)
    (h : ∀ i, k ≤ i → i < k + values.length → a.takes i = true) :
    (writeFrom a k values).2 = true ∧
      (∀ j, (writeFrom a k values).1.elements j =
        if k ≤ j ∧ j < k + values.length then values[j - k]? else a.elements j) ∧
      a.length ≤ (writeFrom a k values).1.length ∧
      (values ≠ [] → k + values.length ≤ (writeFrom a k values).1.length) := by
  induction values generalizing k a with
  | nil =>
    refine ⟨rfl, fun j => ?_, Nat.le_refl _, fun h => absurd rfl h⟩
    rw [if_neg (by rw [List.length_nil]; omega)]
    rfl
  | cons v values ih =>
    have hset : a.set k v = some (a.put k v) := by
      rw [Arr.set, if_pos (h k (Nat.le_refl _) (by rw [List.length_cons]; omega))]
    have hstep : writeFrom a k (v :: values) = writeFrom (a.put k v) (k + 1) values := by
      rw [writeFrom, hset]
    have htakes : ∀ i, k + 1 ≤ i → i < k + 1 + values.length → (a.put k v).takes i = true := by
      intro i hi hlt
      have hi' : i ≠ k := by omega
      have hold := h i (by omega) (by rw [List.length_cons]; omega)
      simpa [Arr.takes, Arr.put, hi'] using hold
    obtain ⟨hall, helements, hle, hlast⟩ := ih (k + 1) (a.put k v) htakes
    have hput : (a.put k v).length = max a.length (k + 1) := rfl
    rw [hput] at hle
    rw [hstep]
    refine ⟨hall, fun j => ?_, (Nat.le_max_left _ _).trans hle, fun _ => ?_⟩
    · rw [helements j, List.length_cons]
      rcases Nat.lt_trichotomy j k with hlt | rfl | hgt
      · rw [if_neg (by omega), if_neg (by omega)]
        exact if_neg (by omega)
      · rw [if_neg (by omega), if_pos (by omega), Nat.sub_self]
        exact if_pos rfl
      · by_cases hj : j < k + (values.length + 1)
        · rw [if_pos (by omega), if_pos (by omega), show j - k = (j - (k + 1)) + 1 by omega,
            List.getElem?_cons_succ]
        · rw [if_neg (by omega), if_neg (by omega)]
          exact if_neg (by omega)
    · rw [List.length_cons]
      cases values with
      | nil => exact (Nat.le_max_right _ _).trans hle
      | cons v' values =>
        have hrest := hlast (List.cons_ne_nil v' values)
        rwa [show k + ((v' :: values).length + 1) = k + 1 + (v' :: values).length by omega]

theorem deletes (n s : Nat) (a : Arr) :
    ((List.range' s n).foldl Arr.delete a).length = a.length ∧
      ∀ j, ((List.range' s n).foldl Arr.delete a).elements j =
        if s ≤ j ∧ j < s + n then none else a.elements j := by
  induction n generalizing s a with
  | zero => exact ⟨rfl, fun j => by rw [if_neg (by omega)]; rfl⟩
  | succ n ih =>
    obtain ⟨hlength, helements⟩ := ih (s + 1) (a.delete s)
    rw [List.range'_succ, List.foldl_cons]
    refine ⟨hlength, fun j => ?_⟩
    rw [helements j]
    rcases Nat.lt_trichotomy j s with hlt | rfl | hgt
    · rw [if_neg (by omega), if_neg (by omega)]
      exact if_neg (by omega)
    · rw [if_neg (by omega), if_pos (by omega)]
      exact if_pos rfl
    · by_cases hj : j < s + (n + 1)
      · rw [if_pos (by omega), if_pos (by omega)]
      · rw [if_neg (by omega), if_neg (by omega)]
        exact if_neg (by omega)

/-- **The write-back**, whichever way it takes. -/
theorem laid_writeBack {w w' : World U} (h : Keeps w w') {values : List Value}
    (hvalues : values.length = (present w.array).length) :
    (writeBack w'.array values (callbackLen w.array)).2 = true ∧
      Laid (writeBack w'.array values (callbackLen w.array)).1 w.array.length values := by
  have hle := length_present_le w.array
  unfold writeBack
  by_cases hfull : values.length = callbackLen w.array
  · rw [if_pos hfull]
    exact ⟨rfl, fun i _ => rfl, hfull ▸ h.length (hvalues.symm.trans hfull)⟩
  · have hholes : (present w.array).length ≠ callbackLen w.array := fun heq =>
      hfull (hvalues.trans heq)
    obtain ⟨hall, hwritten, -, hlast⟩ := writeFrom_spec values 0 w'.array fun i _ hi =>
      h.takes hholes i (by omega)
    rw [if_neg hfull]
    generalize writeFrom w'.array 0 values = written at hall hwritten hlast ⊢
    obtain ⟨a, done⟩ := written
    obtain rfl : done = true := hall
    obtain ⟨hlength, helements⟩ := deletes (callbackLen w.array - values.length) values.length a
    refine ⟨rfl, fun i hi => ?_, ?_⟩
    · show ((List.range' _ _).foldl Arr.delete a).elements i = _
      rw [helements i, hwritten i]
      rcases Nat.lt_or_ge i values.length with hlt | hge
      · rw [if_neg (by omega), if_pos (by omega), Nat.sub_zero]
      · rw [List.getElem?_eq_none hge]
        by_cases hlen : i < callbackLen w.array
        · rw [if_pos (by omega)]
        · rw [if_neg (by omega), if_neg (by omega)]
          -- beyond the scan
          exact h.scanned i (by unfold callbackLen at hlen; omega) hi
    · show values.length ≤ ((List.range' _ _).foldl Arr.delete a).length
      rw [hlength]
      by_cases hnil : values = []
      · rw [hnil]
        exact Nat.zero_le _
      · have hreach : 0 + values.length ≤ a.length := hlast hnil
        omega

/-! ## §4 Sorting -/

def zero : Value := ⟨.smi 0, show InSmi 0 by decide⟩

def one : Value := ⟨.smi 1, show InSmi 1 by decide⟩

/-- `[1, 0]`. -/
def oneZero : World Unit where
  array := ⟨2, fun i => [one, zero][i]?, true⟩
  rest := ()

theorem Reached.eq_of_pure {cmp : Comparator U E} (hcmp : ∀ w a b, (cmp w a b).1 = w) {w w' : World U}
    (h : Reached cmp w w') : w' = w := by
  induction h with
  | start => rfl
  | call _ a b ih => rw [hcmp, ih]

def half : BitVec 64 := BitVec.ofNat 64 (1022 * 2 ^ 52)

def minusHalf : BitVec 64 := BitVec.ofNat 64 (2 ^ 63 + 1022 * 2 ^ 52)

theorem units_half : units half = 2 ^ (52 + 1021) ∧ units minusHalf = 2 ^ (52 + 1021) := by
  have hsig : significand half = 2 ^ 52 ∧ significand minusHalf = 2 ^ 52 := by decide
  have hexp : exponent half - 1 = 1021 ∧ exponent minusHalf - 1 = 1021 := by decide
  simp only [units, hsig, hexp, ← Nat.pow_add, and_self]

def nanOf (_ : Value) : BitVec 64 := nan

def ofDouble (x : BitVec 64) : Value := ⟨.double x, trivial⟩

/-- `(a, b) => (a - b) / 2`, of 0 and 1. -/
def halfDifference (a b : Value) : Value :=
  if a = b then zero else if a = zero then ofDouble minusHalf else ofDouble half

def compareHalves : Comparator Unit Unit := fun w a b => (w, .ok (halfDifference a b))

theorem decision_double (x : BitVec 64) : decision (ofDouble x) = castI64 x := rfl

theorem castI64_half : castI64 half = 0 := by
  have htrunc : trunc half = 0 := by
    rw [trunc, if_neg (by decide), units_half.1, unitsPerOne,
      Nat.div_eq_of_lt (Nat.pow_lt_pow_right (by decide) (by decide))]
    rfl
  rw [castI64, if_neg (by decide), if_pos (by decide), htrunc]
  decide

theorem halfDifference_one_zero : halfDifference one zero = ofDouble half := by
  rw [halfDifference, if_neg (by decide), if_neg (by decide)]

theorem arraySort_oneZero : (arraySort compareHalves oneZero).2 = .ok () ∧
    ∀ i, (arraySort compareHalves oneZero).1.array.elements i = [one, zero][i]? := by
  have hdefined : defined oneZero.array = [one, zero] := by
    decide
  have hcount : undefinedCount oneZero.array = 0 := by
    decide
  have hlen : callbackLen oneZero.array = 2 := by
    decide
  have hfirst : findPlace compareHalves [] one oneZero 0 0 = (oneZero, .ok 0) := by
    rw [findPlace, dif_neg (by decide)]
  have hsecond : findPlace compareHalves [one] zero oneZero 0 1 = (oneZero, .ok 1) := by
    have hcall : compareHalves oneZero ([one].getD ((0 + 1) / 2) .undefined) zero =
        (oneZero, .ok (halfDifference one zero)) := rfl
    rw [findPlace, dif_pos (by decide)]
    simp only [hcall]
    rw [halfDifference_one_zero, decision_double, castI64_half, if_pos (by decide), findPlace,
      dif_neg (by decide)]
  have hrun : insertAll compareHalves oneZero [] [one, zero] = (oneZero, .ok [one, zero]) := by
    rw [insertAll, List.length_nil, hfirst]
    show insertAll compareHalves oneZero [one] [zero] = _
    rw [insertAll, List.length_singleton, hsecond]
    rfl
  rw [arraySort, hdefined, hrun]
  simp only [hcount, hlen]
  exact ⟨rfl, fun i => rfl⟩

theorem consistent_halves : Consistent nanOf compareHalves [one, zero] halfDifference
    fun a b => a = b || a = zero := by
  have hzero : ¬ IsPositive (f64OfInt 0) ∧ ¬ IsNegative (f64OfInt 0) := by
    have hunits : units (f64OfInt 0) = 0 := by decide
    exact ⟨fun h => h.2.2 hunits, fun h => h.2.2 hunits⟩
  have hhalf : IsPositive half ∧ ¬ IsNegative half := by
    refine ⟨⟨by decide, by decide, ?_⟩, fun h => absurd h.2.1 (by decide)⟩
    rw [units_half.1]
    positivity
  have hminus : ¬ IsPositive minusHalf ∧ IsNegative minusHalf := by
    refine ⟨fun h => absurd h.2.1 (by decide), ⟨by decide, by decide, ?_⟩⟩
    rw [units_half.2]
    positivity
  have hvalue (a b : Value) (ha : a ∈ [one, zero]) (hb : b ∈ [one, zero]) :
      (a = b ∧ fullNumber nanOf (halfDifference a b) = f64OfInt 0) ∨
        (a = zero ∧ b = one ∧ fullNumber nanOf (halfDifference a b) = minusHalf) ∨
        (a = one ∧ b = zero ∧ fullNumber nanOf (halfDifference a b) = half) := by
    simp only [List.mem_cons, List.not_mem_nil, or_false] at ha hb
    rcases ha with rfl | rfl <;> rcases hb with rfl | rfl
    · exact .inl ⟨rfl, rfl⟩
    · exact .inr (.inr ⟨rfl, rfl, rfl⟩)
    · exact .inr (.inl ⟨rfl, rfl, rfl⟩)
    · exact .inl ⟨rfl, rfl⟩
  refine ⟨fun _ _ _ _ _ => rfl, fun a ha b hb => ?_, fun a ha b hb => ?_, ?_, ?_⟩
  · rcases hvalue a b ha hb with ⟨rfl, hx⟩ | ⟨rfl, rfl, hx⟩ | ⟨rfl, rfl, hx⟩
    · rw [hx]
      simp [hzero]
    · rw [hx]
      simp [hminus]
    · simp only [hx, hhalf, true_iff]
      decide
  · rcases hvalue a b ha hb with ⟨rfl, hx⟩ | ⟨rfl, rfl, hx⟩ | ⟨rfl, rfl, hx⟩
    · rw [hx]
      simp [hzero]
    · simp only [hx, hminus, true_iff]
      decide
    · rw [hx]
      simp [hhalf]
  · intro a b ha hb
    rcases hvalue a b ha hb with ⟨rfl, -⟩ | ⟨rfl, rfl, -⟩ | ⟨rfl, rfl, -⟩ <;> simp
  · intro a b c ha hb hc hab hbc
    rcases hvalue a b ha hb with ⟨rfl, -⟩ | ⟨rfl, rfl, -⟩ | ⟨rfl, rfl, -⟩
    · exact hbc
    · simp
    · exact absurd hab (by decide)

end V12.Interp.ArraySort
