/-
V12.Engine.StringSearch — `indexOf`, `lastIndexOf`, `includes`, `startsWith` and
`endsWith` of `v12-engine/src/builtins/string.rs`.

Both texts are decoded before they are compared, so an unpaired surrogate of one
looks like U+FFFD, or like an unpaired surrogate, of the other (`LooksAt`).
Otherwise the search from the front is right. The search from the back cuts the
string at its position, so it misses occurrences that extend past it.
-/
import V12.Engine.StringWindows
import V12.Lib.Occurrences

namespace V12.StringMethods

open Lib.Binary64 (Double)
open Lib.Utf16
open Lib.Occurrences

/-! ## §1 The methods -/

def searchText : Option Units → List Char
  | none => "undefined".toList
  | some v => thisText v

/-- `utf16_find`. -/
def utf16Find (haystack needle : Units) (start : Nat) : Option Nat :=
  if needle = [] then some (min start haystack.length)
  else if haystack.length ≤ start ∨ haystack.length < needle.length then none
  else (((windows haystack needle.length).drop start).findIdx? (· = needle)).map (· + start)

def fromIndex (pos : Argument) : Nat := (max (toInt pos) 0).toNat

/-- The offset, or `none` for `-1`. -/
def stringIndexOf (s : Units) (search : Option Units) (pos : Argument) : Option Nat :=
  utf16Find (utf16 (thisText s)) (utf16 (searchText search)) (fromIndex pos)

/-- `n.trunc().max(0.0) as usize`. -/
def truncateUsize (n : Double) : Nat :=
  toU64 (if n.trunc.lt (.finite 0) then .finite 0 else n.trunc)

/-- The end of what `lastIndexOf` looks at. -/
def lastEnd (len : Nat) : Argument → Nat
  | .absent | .undefined | .number .nan => len
  | .number n => min (truncateUsize n) len

def stringLastIndexOf (s : Units) (search : Option Units) (pos : Argument) : Option Nat :=
  let units := utf16 (thisText s)
  let needle := utf16 (searchText search)
  let stop := lastEnd units.length pos
  if needle = [] then some stop
  else rposition (windows (units.take stop) needle.length) needle

def stringIncludes (s : Units) (search : Option Units) (pos : Argument) : Bool :=
  (utf16Find (utf16 (thisText s)) (utf16 (searchText search)) (fromIndex pos)).isSome

def stringStartsWith (s : Units) (search : Option Units) (pos : Argument) : Bool :=
  let units := utf16 (thisText s)
  let needle := utf16 (searchText search)
  let start := fromIndex pos
  start ≤ units.length && needle.length ≤ units.length - start &&
    window units start needle.length = needle

def stringEndsWith (s : Units) (search : Option Units) (pos : Argument) : Bool :=
  let units := utf16 (thisText s)
  let needle := utf16 (searchText search)
  let stop := (givenOr units.length (fun n => min (max n 0) units.length) pos).toNat
  needle.length ≤ stop && window units (stop - needle.length) needle.length = needle

/-! ## §2 What they are for -/

def searchUnits (search : Option Units) : Units := search.getD (encode "undefined".toList)

/-- Where `lastIndexOf` begins: NaN counts as infinity. -/
def Argument.lastPlace : Argument → Place
  | .absent | .undefined | .number .nan => .last
  | .number n => toPlace n

def Place.Beyond (len : Nat) : Place → Prop
  | .first => False
  | .at z => len < z
  | .last => True

/-- A call of a search method. -/
inductive Search where
  | indexOf (s : JsString) (search : Option JsString) (pos : Argument)
  | lastIndexOf (s : JsString) (search : Option JsString) (pos : Argument)
  | includes (s : JsString) (search : Option JsString) (pos : Argument)
  | startsWith (s : JsString) (search : Option JsString) (pos : Argument)
  | endsWith (s : JsString) (search : Option JsString) (pos : Argument)

def Search.texts : Search → Units × Units
  | .indexOf s search _ | .lastIndexOf s search _ | .includes s search _ | .startsWith s search _
  | .endsWith s search _ => (s.units, searchUnits (search.map JsString.units))

/-- A call answers where the text occurs. -/
def Finds (c : Search) : Prop :=
  let s := c.texts.1
  let t := c.texts.2
  match c with
  | .indexOf _ search pos =>
    First (· < ·) (fun k => pos.place.within s.length ≤ k ∧ OccursAt s t k)
      (stringIndexOf s (search.map JsString.units) pos)
  | .lastIndexOf _ search pos =>
    First (· > ·) (fun k => k ≤ pos.lastPlace.within s.length ∧ OccursAt s t k)
      (stringLastIndexOf s (search.map JsString.units) pos)
  | .includes _ search pos =>
    stringIncludes s (search.map JsString.units) pos = true ↔
      ∃ k, pos.place.within s.length ≤ k ∧ OccursAt s t k
  | .startsWith _ search pos =>
    stringStartsWith s (search.map JsString.units) pos = true ↔
      OccursAt s t (pos.place.within s.length)
  | .endsWith _ search pos =>
    stringEndsWith s (search.map JsString.units) pos = true ↔
      let stop := pos.given.elim s.length (Place.within s.length)
      t.length ≤ stop ∧ OccursAt s t (stop - t.length)

/-- The unit at an offset, an unpaired surrogate counting as U+FFFD. -/
def Shows (s : Units) (i : Nat) (u : BitVec 16) : Prop :=
  (Unpaired s i ∧ u = 0xFFFD) ∨ (¬ Unpaired s i ∧ s[i]? = some u)

/-- The text seems to occur at an offset, if unpaired surrogates count as U+FFFD. -/
def LooksAt (s t : Units) (k : Nat) : Prop :=
  k + t.length ≤ s.length ∧ ∀ i < t.length, ∀ u, Shows s (k + i) u ↔ Shows t i u

def FindsAlike (c : Search) : Prop :=
  let s := c.texts.1
  let t := c.texts.2
  match c with
  | .indexOf _ _ pos =>
    SameFirst (· < ·) (fun k => pos.place.within s.length ≤ k ∧ LooksAt s t k)
      (fun k => pos.place.within s.length ≤ k ∧ OccursAt s t k)
  | .lastIndexOf _ _ pos =>
    SameFirst (· > ·) (fun k => k + t.length ≤ pos.lastPlace.within s.length ∧ LooksAt s t k)
      (fun k => k ≤ pos.lastPlace.within s.length ∧ OccursAt s t k)
  | .includes _ _ pos =>
    (∃ k, pos.place.within s.length ≤ k ∧ LooksAt s t k) ↔
      ∃ k, pos.place.within s.length ≤ k ∧ OccursAt s t k
  | .startsWith _ _ pos =>
    (pos.place.Beyond s.length → t ≠ []) ∧ (¬ pos.place.Beyond s.length →
      (LooksAt s t (pos.place.within s.length) ↔ OccursAt s t (pos.place.within s.length)))
  | .endsWith _ _ pos =>
    let stop := pos.given.elim s.length (Place.within s.length)
    t.length ≤ stop → (LooksAt s t (stop - t.length) ↔ OccursAt s t (stop - t.length))

/-! ## §3 What is seen -/

theorem shows_iff {s : Units} {i : Nat} {u : BitVec 16} : Shows s i u ↔ (lossy s)[i]? = some u := by
  unfold Shows
  by_cases h : Unpaired s i
  · rw [getElem?_lossy_of_unpaired h, Option.some.injEq]
    constructor
    · rintro (⟨-, rfl⟩ | ⟨hnot, -⟩)
      · rfl
      · exact absurd h hnot
    · exact fun hu => .inl ⟨h, hu.symm⟩
  · rw [getElem?_lossy_of_paired h]
    constructor
    · rintro (⟨hunpaired, -⟩ | ⟨-, hu⟩)
      · exact absurd hunpaired h
      · exact hu
    · exact fun hu => .inr ⟨h, hu⟩

theorem looksAt_iff {s t : Units} {k : Nat} : LooksAt s t k ↔ OccursAt (lossy s) (lossy t) k := by
  unfold LooksAt
  rw [occursAt_iff_getElem?, length_lossy, length_lossy]
  refine and_congr_right fun _ => forall₂_congr fun i _ => ?_
  simp only [shows_iff]
  constructor
  · intro h
    exact Option.ext h
  · intro h u
    rw [h]

theorem utf16_searchText (search : Option Units) :
    utf16 (searchText search) = lossy (searchUnits search) := by
  cases search with
  | none =>
    change encode _ = encode (decode (encode _))
    rw [decode_encode]
    rfl
  | some v => rfl

/-! ## §4 Searching -/

theorem fromIndex_eq {len : Nat} (hlen : len < 2 ^ 32) (pos : Argument) :
    min (fromIndex pos) len = pos.place.within len ∧
      (len < fromIndex pos ↔ pos.place.Beyond len) := by
  unfold fromIndex
  rw [toInt_eq]
  unfold Place.toI64 Place.within Place.Beyond
  cases pos.place with
  | first =>
    dsimp only
    exact ⟨by omega, fun h => by omega, fun h => h.elim⟩
  | last =>
    dsimp only
    exact ⟨by omega, fun _ => trivial, fun _ => by omega⟩
  | «at» z =>
    dsimp only
    omega

theorem first_utf16Find (haystack needle : Units) (start : Nat) :
    First (· < ·) (fun k => min start haystack.length ≤ k ∧ OccursAt haystack needle k)
      (utf16Find haystack needle start) := by
  unfold utf16Find
  split
  case isTrue hnil =>
    subst hnil
    refine ⟨⟨Nat.le_refl _, occursAt_nil.mpr (Nat.min_le_right _ _)⟩, ?_⟩
    rintro j hj ⟨hle, -⟩
    omega
  case isFalse hne =>
    have hpos : 0 < needle.length := List.length_pos_iff.mpr hne
    split
    case isTrue houtside =>
      rintro k ⟨hle, hoccurs⟩
      have hfits := (occursAt_iff.mp hoccurs).1
      omega
    case isFalse hinside =>
      have hfirst := first_findIdx? ((windows haystack needle.length).drop start) needle
      simp only [List.getElem?_drop, getElem?_windows_eq] at hfirst
      cases hfind : ((windows haystack needle.length).drop start).findIdx? (· = needle) with
      | none =>
        rw [hfind] at hfirst
        rintro k ⟨hle, hoccurs⟩
        refine hfirst (k - start) ?_
        change OccursAt haystack needle (start + (k - start))
        rwa [show start + (k - start) = k by omega]
      | some i =>
        rw [hfind] at hfirst
        obtain ⟨hi, hbefore⟩ := hfirst
        refine ⟨?_, ?_⟩
        · change min start haystack.length ≤ i + start ∧ OccursAt haystack needle (i + start)
          rw [Nat.add_comm i start]
          exact ⟨by omega, hi⟩
        · rintro j hj ⟨hle, hoccurs⟩
          refine hbefore (j - start) ?_ ?_
          · change j < i + start at hj
            omega
          · change OccursAt haystack needle (start + (j - start))
            rwa [show start + (j - start) = j by omega]

theorem first_rposition_take (haystack needle : Units) {stop : Nat} (hstop : stop ≤ haystack.length) :
    First (· > ·) (fun k => k + needle.length ≤ stop ∧ OccursAt haystack needle k)
      (if needle = [] then some stop
        else rposition (windows (haystack.take stop) needle.length) needle) := by
  split
  case isTrue hnil =>
    subst hnil
    refine ⟨⟨Nat.le_refl _, occursAt_nil.mpr hstop⟩, ?_⟩
    rintro j hj ⟨hle, -⟩
    rw [List.length_nil, Nat.add_zero] at hle
    exact absurd hle (Nat.not_le_of_gt hj)
  case isFalse =>
    have hfirst := first_rposition (windows (haystack.take stop) needle.length) needle
    simp only [getElem?_windows_eq] at hfirst
    have hiff : ∀ k, OccursAt (haystack.take stop) needle k ↔
        k + needle.length ≤ stop ∧ OccursAt haystack needle k := by
      intro k
      rw [occursAt_iff_getElem?, occursAt_iff_getElem?, List.length_take, Nat.min_eq_left hstop]
      constructor
      · rintro ⟨hle, hget⟩
        refine ⟨hle, by omega, ?_⟩
        intro i hi
        rw [← hget i hi, List.getElem?_take_of_lt (by omega)]
      · rintro ⟨hle, -, hget⟩
        refine ⟨hle, ?_⟩
        intro i hi
        rw [← hget i hi, List.getElem?_take_of_lt (by omega)]
    simp only [hiff] at hfirst
    exact hfirst

theorem lastEnd_eq {len : Nat} (hlen : len < 2 ^ 32) (pos : Argument) :
    lastEnd len pos = pos.lastPlace.within len := by
  cases pos with
  | absent => rfl
  | undefined => rfl
  | number x =>
    cases x with
    | nan => rfl
    | infinite negative =>
      cases negative with
      | true =>
        change min (toU64 (.finite 0)) len = 0
        change min (min (Lib.Binary64.truncate 0).toNat (2 ^ 64 - 1)) len = 0
        rw [truncate_zero]
        omega
      | false =>
        change min (2 ^ 64 - 1) len = len
        omega
    | finite q =>
      have htrunc : truncateUsize (.finite q) =
          min (Lib.Binary64.truncate q).toNat (2 ^ 64 - 1) := by
        have hlt : (Double.finite q).trunc.lt (.finite 0) =
            decide (((Lib.Binary64.truncate q : ℤ) : ℚ) < 0) := rfl
        unfold truncateUsize
        rw [hlt]
        by_cases hneg : Lib.Binary64.truncate q < 0
        · rw [if_pos (decide_eq_true (by exact_mod_cast hneg))]
          change min (Lib.Binary64.truncate 0).toNat (2 ^ 64 - 1) = _
          rw [truncate_zero]
          omega
        · rw [if_neg (by rw [decide_eq_true_eq]; exact_mod_cast hneg)]
          change min (Lib.Binary64.truncate (Lib.Binary64.truncate q : ℚ)).toNat (2 ^ 64 - 1) = _
          rw [Lib.Binary64.truncate_intCast]
      change min (truncateUsize (.finite q)) len = min (Lib.Binary64.truncate q).toNat len
      rw [htrunc]
      omega

/-! ## §5 The methods -/

section Methods

variable (s : JsString) (search : Option Units) (pos : Argument)

theorem first_indexOf : First (· < ·)
    (fun k => pos.place.within s.units.length ≤ k ∧ LooksAt s.units (searchUnits search) k)
    (stringIndexOf s.units search pos) := by
  have hfirst := first_utf16Find (lossy s.units) (lossy (searchUnits search)) (fromIndex pos)
  rw [length_lossy, (fromIndex_eq s.short pos).1] at hfirst
  simp only [← looksAt_iff] at hfirst
  rw [← utf16_searchText] at hfirst
  exact hfirst

theorem first_lastIndexOf : First (· > ·)
    (fun k => k + (searchUnits search).length ≤ pos.lastPlace.within s.units.length ∧
      LooksAt s.units (searchUnits search) k)
    (stringLastIndexOf s.units search pos) := by
  have hle := within_le pos.lastPlace s.units.length
  rw [← length_lossy s.units] at hle
  have hfirst := first_rposition_take (lossy s.units) (lossy (searchUnits search)) hle
  simp only [← looksAt_iff, length_lossy] at hfirst
  unfold stringLastIndexOf
  dsimp only
  rw [show utf16 (thisText s.units) = lossy s.units from rfl, utf16_searchText]
  simp only [length_lossy, lastEnd_eq s.short]
  exact hfirst

theorem stringIncludes_iff : stringIncludes s.units search pos = true ↔
    ∃ k, pos.place.within s.units.length ≤ k ∧ LooksAt s.units (searchUnits search) k := by
  have hfirst := first_indexOf s search pos
  change (stringIndexOf s.units search pos).isSome = true ↔ _
  cases hfind : stringIndexOf s.units search pos with
  | none =>
    rw [hfind] at hfirst
    exact iff_of_false Bool.false_ne_true (fun h => hfirst h.choose h.choose_spec)
  | some k =>
    rw [hfind] at hfirst
    exact iff_of_true rfl ⟨k, hfirst.1⟩

theorem stringStartsWith_iff : stringStartsWith s.units search pos = true ↔
    ¬ pos.place.Beyond s.units.length ∧
      LooksAt s.units (searchUnits search) (pos.place.within s.units.length) := by
  obtain ⟨hmin, hbeyond⟩ := fromIndex_eq s.short pos
  unfold stringStartsWith
  dsimp only
  rw [show utf16 (thisText s.units) = lossy s.units from rfl, utf16_searchText, looksAt_iff,
    occursAt_iff, ← hbeyond, ← hmin]
  simp only [Bool.and_eq_true, decide_eq_true_eq, length_lossy]
  unfold window
  constructor
  · rintro ⟨⟨hle, hfits⟩, heq⟩
    rw [Nat.min_eq_left hle]
    exact ⟨by omega, by omega, heq⟩
  · rintro ⟨hle, hfits, heq⟩
    rw [Nat.min_eq_left (by omega)] at hfits heq
    exact ⟨⟨by omega, by omega⟩, heq⟩

theorem stringEndsWith_iff : stringEndsWith s.units search pos = true ↔
    let stop := pos.given.elim s.units.length (Place.within s.units.length)
    (searchUnits search).length ≤ stop ∧
      LooksAt s.units (searchUnits search) (stop - (searchUnits search).length) := by
  have hstop : givenOr s.units.length (fun n => min (max n 0) s.units.length) pos =
      (pos.given.elim s.units.length (Place.within s.units.length) : Nat) := by
    rw [givenOr_eq]
    refine elim_cast pos.given s.units.length fun p => ?_
    have hclamp := clamp_toI64 s.short p
    unfold clamp at hclamp
    omega
  have hle : pos.given.elim s.units.length (Place.within s.units.length) ≤ s.units.length := by
    cases pos.given with
    | none => exact Nat.le_refl _
    | some p => exact within_le p _
  unfold stringEndsWith
  dsimp only
  rw [show utf16 (thisText s.units) = lossy s.units from rfl, utf16_searchText, looksAt_iff,
    occursAt_iff]
  simp only [Bool.and_eq_true, decide_eq_true_eq, length_lossy]
  rw [hstop, Int.toNat_natCast]
  generalize pos.given.elim s.units.length (Place.within s.units.length) = stop at hle
  refine and_congr_right fun hfits => ?_
  constructor
  · intro heq
    exact ⟨by omega, heq⟩
  · exact fun h => h.2

end Methods

theorem occursAt_beyond (s t : Units) {p : Place} (h : p.Beyond s.length) :
    OccursAt s t (p.within s.length) ↔ t = [] := by
  have hend : p.within s.length = s.length := by
    unfold Place.Beyond at h
    unfold Place.within
    cases p with
    | first => exact h.elim
    | last => rfl
    | «at» z =>
      dsimp only at h ⊢
      omega
  rw [hend, occursAt_iff]
  constructor
  · rintro ⟨hfits, -⟩
    exact List.eq_nil_of_length_eq_zero (by omega)
  · rintro rfl
    exact ⟨Nat.le_refl _, rfl⟩

theorem start_cases {beyond looks occurs empty : Prop} (h : beyond → (occurs ↔ empty)) :
    ((¬ beyond ∧ looks) ↔ occurs) ↔ (beyond → ¬ empty) ∧ (¬ beyond → (looks ↔ occurs)) := by
  by_cases hbeyond : beyond
  · rw [h hbeyond]
    simp [hbeyond]
  · simp [hbeyond]

/-- **A search answers where the text occurs** exactly if the condition holds. -/
theorem finds_iff (c : Search) : Finds c ↔ FindsAlike c := by
  cases c with
  | indexOf s search pos =>
    exact First.congr_iff lt_total (hasFirst_lt _) (first_indexOf s (search.map JsString.units) pos)
  | lastIndexOf s search pos =>
    exact First.congr_iff gt_total (hasFirst_gt fun k hk => hk.1)
      (first_lastIndexOf s (search.map JsString.units) pos)
  | includes s search pos =>
    exact iff_congr (stringIncludes_iff s (search.map JsString.units) pos) Iff.rfl
  | startsWith s search pos =>
    change (stringStartsWith s.units (search.map JsString.units) pos = true ↔ _) ↔ _
    rw [stringStartsWith_iff]
    exact start_cases (occursAt_beyond s.units _)
  | endsWith s search pos =>
    change (stringEndsWith s.units (search.map JsString.units) pos = true ↔ _) ↔ _
    rw [stringEndsWith_iff]
    exact and_congr_right_iff

def twoLetters : JsString := ⟨encode "ab".toList, by decide⟩

/-- `"ab".lastIndexOf("ab", 0)` is `-1`. -/
theorem not_finds_lastIndexOf :
    ¬ Finds (.lastIndexOf twoLetters (some twoLetters) (.number (.finite 0))) := by
  intro h
  have hzero : (Argument.number (.finite 0)).lastPlace.within 2 = 0 := by
    change min (Lib.Binary64.truncate 0).toNat 2 = 0
    rw [truncate_zero]
    rfl
  have hnone : stringLastIndexOf twoLetters.units (some twoLetters.units) (.number (.finite 0)) =
      none := by
    have hstop : lastEnd 2 (.number (.finite 0)) = 0 :=
      (lastEnd_eq (by decide) (.number (.finite 0))).trans hzero
    unfold stringLastIndexOf
    dsimp only
    rw [show (utf16 (thisText twoLetters.units)).length = 2 from rfl, hstop]
    decide
  change First (· > ·) (fun k => k ≤ (Argument.number (.finite 0)).lastPlace.within 2 ∧ _)
    (stringLastIndexOf twoLetters.units (some twoLetters.units) (.number (.finite 0))) at h
  rw [hnone] at h
  refine h 0 ⟨Nat.zero_le _, ?_⟩
  change OccursAt twoLetters.units twoLetters.units 0
  decide

end V12.StringMethods
