/-
V12.Engine.DateSafety — `parse_date` on every text.

The ES format is left at a character boundary after each part (`isoRest_post`),
so `parse_iso` does not panic. The fallback takes the first three bytes of up to
three words after a look at their length alone; it panics where they end inside a
character (`readsDate_iff`).
-/
import V12.Engine.DateParse
import V12.Engine.DateTimeTheorems

namespace V12.DateTime

open Lib.Binary64 Lib.Binary64.Double Lib.Utf8 V12.Interp

variable {words : List (List Char)} {s : List Char}

/-! ## §1 The property -/

/-- Reading the text does not panic and gives a time value or NaN. -/
def ReadsDate (s : List Char) : Prop :=
  parseDate s = .none ∨ parseDate s = .some .nan ∨
    ∃ t : ℤ, IsTimeValue t ∧ parseDate s = .some (ofInt t)

/-- A word that is short, or has a character boundary behind three bytes. -/
def CutsAtThree (w : List Char) : Prop :=
  (bytes w).length < 3 ∨ ∃ p q, w = p ++ q ∧ (bytes p).length = 3

def IsMonth (w : List Char) : Prop := asciiLower (w.take 3) ∈ MONTHS.map asciiLower

def datedWords (s : List Char) : List (List Char) :=
  match splitWhitespace (trimText s) with
  | [] => []
  | w :: words => if WEEKDAYS.contains ((trimCommas w).take 3) then words else w :: words

/-- The words that are cut can be cut: the first, without its commas; the first but for a
weekday; and the one behind that, if that is the day. -/
structure Cuttable (s : List Char) : Prop where
  weekday : ∀ w ∈ (splitWhitespace (trimText s)).head?, CutsAtThree (trimCommas w)
  first : ∀ w ∈ (datedWords s).head?, CutsAtThree w
  second : ∀ w ∈ (datedWords s).head?, ¬ IsMonth w → (parseFloat (trimCommas w)).isSome →
    ∀ m ∈ (datedWords s)[1]?, CutsAtThree m

/-! ## §2 Outcomes -/

namespace Outcome

variable {α β : Type} {P : α → Prop} {Q : β → Prop}

def Post (x : Outcome α) (P : α → Prop) : Prop :=
  match x with
  | panic => False
  | none => True
  | some a => P a

theorem some_bind (a : α) (f : α → Outcome β) : (some a >>= f) = f a := rfl

theorem panic_bind (f : α → Outcome β) : (panic >>= f) = panic := rfl

theorem Post.bind {x : Outcome α} {f : α → Outcome β} (h : x.Post P)
    (hf : ∀ a, P a → (f a).Post Q) : (x >>= f).Post Q := by
  cases x with
  | panic => exact h
  | none => exact h
  | some a => exact hf a h

theorem Post.guard {test : Bool} : (guard test).Post fun _ => test = true := by
  cases test with
  | false => exact trivial
  | true => exact rfl

theorem Post.ofOption {x : Option α} : (ofOption x).Post fun a => x = Option.some a := by
  cases x with
  | none => exact trivial
  | some a => exact rfl

theorem Post.of_slice {x : Option α} {a : α} (h : x = Option.some a) :
    (ofSlice x).Post fun b => b = a := by
  cases h
  exact rfl

theorem Post.mono {P' : α → Prop} {x : Outcome α} (h : x.Post P) (hP : ∀ a, P a → P' a) :
    x.Post P' := by
  cases x with
  | panic => exact h
  | none => exact h
  | some a => exact hP a h

theorem Post.ne_panic {x : Outcome α} (h : x.Post P) : x ≠ panic := by
  rintro rfl
  exact h

end Outcome

/-! ## §3 The ES format -/

section Iso

variable {s rest : List Char} {i : Nat}

/-- An offset that is a boundary, with nothing but ASCII before it. -/
def Bounds (s : List Char) (i : Nat) : Prop := ∃ rest, Reads s i rest

theorem asciiDigit_lt {b : Nat} (h : asciiDigit b = true) : b < 128 := by
  simp only [asciiDigit, decide_eq_true_eq] at h
  omega

theorem Bounds.byte {c : Char} (h : Bounds s i) (hbyte : isByte s i c = true)
    (hc : c.toNat < 128) : Bounds s (i + 1) := by
  obtain ⟨rest, h⟩ := h
  obtain ⟨_, rest', -, -, hnext⟩ := h.next (of_decide_eq_true hbyte) hc
  exact ⟨rest', hnext⟩

theorem Bounds.slice {k : Nat} (h : Bounds s i)
    (hk : ∀ j < k, ∃ b, (bytes s)[i + j]? = some b ∧ b < 128) :
    Bounds s (i + k) ∧ ∃ m, slice s i (i + k) = some m ∧ m.length = k := by
  obtain ⟨rest, h⟩ := h
  obtain ⟨m, rest', hslice, hlength, -, -, -, hreads⟩ := h.slice k hk
  exact ⟨⟨rest', hreads⟩, m, hslice, hlength⟩

theorem byte_of_areDigits {k j : Nat} (h : areDigits s i (i + k) = true) (hj : j < k) :
    ∃ b, (bytes s)[i + j]? = some b ∧ b < 128 := by
  simp only [areDigits, Bool.and_eq_true, decide_eq_true_eq] at h
  obtain ⟨hlength, hall⟩ := h
  have hlt : i + j < (bytes s).length := by omega
  refine ⟨(bytes s)[i + j], List.getElem?_eq_getElem hlt, asciiDigit_lt ?_⟩
  refine List.all_eq_true.mp hall _ (List.mem_iff_getElem?.mpr ⟨j, ?_⟩)
  rw [List.getElem?_drop, List.getElem?_take, if_pos (by omega), List.getElem?_eq_getElem hlt]

theorem parseFixed_post (h : Bounds s i) (len : Nat) :
    (parseFixed s i len).Post fun _ => Bounds s (i + len) := by
  refine .bind .guard fun _ hdigits => ?_
  obtain ⟨hnext, m, hslice, -⟩ := h.slice fun j hj => byte_of_areDigits hdigits hj
  exact .bind (.of_slice hslice) fun _ _ => Outcome.Post.ofOption.mono fun _ _ => hnext

theorem isoYear_post (s : List Char) : (isoYear s).Post fun p => Bounds s p.2 := by
  have hstart : Bounds s 0 := ⟨s, reads_start s⟩
  unfold isoYear
  split
  · next hsign =>
    have hone : Bounds s 1 := by
      rcases Bool.or_eq_true _ _ ▸ hsign with h | h
      · exact hstart.byte h (by decide)
      · exact hstart.byte h (by decide)
    refine .bind .guard fun _ hdigits => ?_
    obtain ⟨hnext, m, hslice, -⟩ := hone.slice fun j hj => byte_of_areDigits (k := 6) hdigits hj
    exact .bind (.of_slice hslice) fun _ _ => .bind .ofOption fun _ _ => .bind .guard fun _ _ => hnext
  · refine .bind .guard fun _ hdigits => ?_
    obtain ⟨hnext, m, hslice, -⟩ := hstart.slice fun j hj => byte_of_areDigits (k := 4) hdigits hj
    rw [Nat.zero_add] at hslice hnext
    exact .bind (.of_slice hslice) fun _ _ => .bind .ofOption fun _ _ => hnext

theorem isoDay_post (h : Bounds s i) : (isoDay s i).Post fun p => Bounds s p.2 := by
  unfold isoDay
  split
  · next hdash =>
    exact .bind (parseFixed_post (h.byte hdash (by decide)) 2) fun _ hnext =>
      .bind .guard fun _ _ => hnext
  · exact h

theorem isoDate_post (h : Bounds s i) : (isoDate s i).Post fun p => Bounds s p.2.2 := by
  unfold isoDate
  split
  · next hdash =>
    exact .bind (parseFixed_post (h.byte hdash (by decide)) 2) fun _ hnext =>
      .bind .guard fun _ _ => .bind (isoDay_post hnext) fun _ hday => hday
  · exact h

theorem byte_of_digitRun {j : Nat} (hj : j < digitRun s i) :
    ∃ b, (bytes s)[i + j]? = some b ∧ b < 128 := by
  have hdigit := List.all_eq_true.mp List.all_takeWhile _ (List.getElem_mem hj)
  obtain ⟨t, ht⟩ := List.takeWhile_prefix (l := (bytes s).drop i) asciiDigit
  have hget : (((bytes s).drop i).takeWhile asciiDigit ++ t)[j]? = some _ :=
    (List.getElem?_append_left hj).trans (List.getElem?_eq_getElem hj)
  rw [ht, List.getElem?_drop] at hget
  exact ⟨_, hget, asciiDigit_lt hdigit⟩

theorem isoFraction_post (h : Bounds s i) : (isoFraction s i).Post fun p => Bounds s p.2 := by
  unfold isoFraction
  split
  · next hpoint =>
    obtain ⟨hnext, m, hslice, -⟩ := (h.byte hpoint (by decide)).slice fun j hj => byte_of_digitRun hj
    exact .bind (.of_slice hslice) fun _ _ => .bind .guard fun _ _ => .bind .ofOption fun _ _ => hnext
  · exact h

theorem isoSecond_post (h : Bounds s i) : (isoSecond s i).Post fun p => Bounds s p.2.2 := by
  unfold isoSecond
  split
  · next hcolon =>
    exact .bind (parseFixed_post (h.byte hcolon (by decide)) 2) fun _ hnext =>
      .bind .guard fun _ _ => .bind (isoFraction_post hnext) fun _ hfraction => hfraction
  · exact h

theorem isoTime_post (h : Bounds s i) : (isoTime s i).Post fun p => Bounds s p.2 := by
  unfold isoTime
  split
  · next hsep =>
    have hone : Bounds s (i + 1) := by
      simp only [Bool.or_eq_true] at hsep
      rcases hsep with (hsep | hsep) | hsep
      · exact h.byte hsep (by decide)
      · exact h.byte hsep (by decide)
      · exact h.byte hsep (by decide)
    refine .bind (parseFixed_post hone 2) fun _ hhour => .bind .guard fun _ htest => ?_
    have hcolon := hhour.byte (Bool.and_eq_true _ _ ▸ htest).2 (by decide)
    exact .bind (parseFixed_post hcolon 2) fun _ hminute => .bind .guard fun _ _ =>
      .bind (isoSecond_post hminute) fun _ hsecond => hsecond
  · exact h

theorem isoZone_post (h : Bounds s i) : (isoZone s i).Post fun p => Bounds s p.2 := by
  unfold isoZone
  split
  · next hzone =>
    rcases Bool.or_eq_true _ _ ▸ hzone with hzone | hzone
    · exact h.byte hzone (by decide)
    · exact h.byte hzone (by decide)
  · split
    · next hsign =>
      have hone : Bounds s (i + 1) := by
        rcases Bool.or_eq_true _ _ ▸ hsign with hsign | hsign
        · exact h.byte hsign (by decide)
        · exact h.byte hsign (by decide)
      refine .bind (parseFixed_post hone 2) fun _ hhour => .bind .guard fun _ hcolon => ?_
      exact .bind (parseFixed_post (hhour.byte hcolon (by decide)) 2) fun _ hminute =>
        .bind .guard fun _ _ => hminute
    · exact h

theorem isoRest_post (h : Bounds s i) :
    (isoRest s i).Post fun _ => ∀ c ∈ s, c.toNat < 128 := by
  unfold isoRest
  split
  · next hend =>
    obtain ⟨rest, h⟩ := h
    exact h.ascii hend
  · refine .bind (isoTime_post h) fun p htime => .bind (isoZone_post htime) fun q hzone => ?_
    refine .bind .guard fun _ hend => ?_
    obtain ⟨rest, hzone⟩ := hzone
    exact hzone.ascii (of_decide_eq_true hend)

end Iso

/-! ## §4 Clipping -/

theorem isTimeValue_truncate {q : ℚ} (h : |q| ≤ 8640000000000000) : IsTimeValue (truncate q) := by
  obtain ⟨hlow, hhigh⟩ := abs_le.mp h
  unfold truncate IsTimeValue
  split
  · next hneg =>
    have hle : ⌈q⌉ ≤ 0 := Int.ceil_le.mpr (by exact_mod_cast hneg.le)
    have hge : -8640000000000000 ≤ ⌈q⌉ := by
      exact_mod_cast hlow.trans (Int.le_ceil q)
    exact ⟨hge, by omega⟩
  · next hneg =>
    have hge : 0 ≤ ⌊q⌋ := Int.floor_nonneg.mpr (not_lt.mp hneg)
    have hle : ⌊q⌋ ≤ 8640000000000000 := by
      exact_mod_cast (Int.floor_le q).trans hhigh
    exact ⟨by omega, hle⟩

theorem timeClip_cases (t : Double) :
    timeClip t = .nan ∨ ∃ n : ℤ, IsTimeValue n ∧ timeClip t = ofInt n := by
  cases t with
  | nan => exact .inl rfl
  | infinite s => exact .inl rfl
  | finite q =>
    by_cases h : |q| ≤ 8640000000000000
    · exact .inr ⟨truncate q, isTimeValue_truncate h, if_pos h⟩
    · exact .inl (if_neg h)

theorem parseIso_post (s : List Char) : (parseIso s).Post fun x =>
    (∀ c ∈ s, c.toNat < 128) ∧ ∃ t, x = timeClip t := by
  refine .bind (isoYear_post s) fun p hyear => .bind (isoDate_post hyear) fun q hdate => ?_
  exact .bind (isoRest_post hdate) fun r hascii => .bind .guard fun _ _ => ⟨hascii, _, rfl⟩

/-! ## §5 The first three bytes -/

section FirstThree

variable {w p q : List Char}

theorem append_inj_bytes {p' q' : List Char} (h : p ++ q = p' ++ q')
    (hlength : (bytes p).length = (bytes p').length) : p = p' := by
  have hsplit := splitAt?_append p q
  rw [h, hlength, splitAt?_append] at hsplit
  exact (Prod.mk.inj (Option.some.inj hsplit)).1.symm

theorem firstThree_short (h : (bytes w).length < 3) : firstThree w = .some none :=
  if_neg (by omega)

theorem firstThree_append (hw : w = p ++ q) (h : (bytes p).length = 3) :
    firstThree w = .some (some p) := by
  subst hw
  have hslice := slice_append [] p q
  have hlength : (bytes (p ++ q)).length ≥ 3 := by
    rw [bytes_append, List.length_append]
    omega
  rw [h] at hslice
  unfold firstThree
  rw [if_pos hlength, show slice (p ++ q) 0 3 = some p from hslice]
  rfl

theorem firstThree_panic (h : ¬ CutsAtThree w) : firstThree w = .panic := by
  have hlength : (bytes w).length ≥ 3 := by
    by_contra hshort
    exact h (.inl (by omega))
  have hslice : slice w 0 3 = none := by
    unfold slice
    rw [if_pos (Nat.zero_le 3)]
    cases hsplit : splitAt? w 3 with
    | none => cases w <;> simp only [splitAt?, Option.bind_eq_bind, Option.bind_some, hsplit] <;> rfl
    | some r =>
      obtain ⟨hw, hp⟩ := eq_append_of_splitAt? hsplit
      exact absurd (.inr ⟨_, _, hw, hp⟩) h
  unfold firstThree
  rw [if_pos hlength, hslice]
  rfl

theorem take_eq_of_length (hw : w = p ++ q) (h : p.length = 3) : w.take 3 = p := by
  rw [hw, ← h, List.take_left]

theorem take_eq_of_ascii (hw : w = p ++ q) (h : (bytes p).length = 3)
    (hlength : (w.take 3).length = 3) (hascii : ∀ c ∈ w.take 3, c.toNat < 128) : w.take 3 = p := by
  have hsplit : w.take 3 ++ w.drop 3 = p ++ q := by rw [List.take_append_drop, hw]
  exact append_inj_bytes hsplit (by rw [bytes_ascii hascii, List.length_map, hlength, h])

theorem length_bytes_ge (hlength : (w.take 3).length = 3) (hascii : ∀ c ∈ w.take 3, c.toNat < 128) :
    3 ≤ (bytes w).length := by
  rw [← List.take_append_drop 3 w, bytes_append, List.length_append, bytes_ascii hascii,
    List.length_map, hlength]
  omega

theorem ascii_of_all {names : List (List Char)}
    (h : (names.all fun d => d.length == 3 && d.all fun c => decide (c.toNat < 128)) = true) :
    ∀ d ∈ names, d.length = 3 ∧ ∀ c ∈ d, c.toNat < 128 := by
  simpa only [List.all_eq_true, Bool.and_eq_true, beq_iff_eq, decide_eq_true_eq] using h

theorem weekday_ascii : ∀ d ∈ WEEKDAYS, d.length = 3 ∧ ∀ c ∈ d, c.toNat < 128 :=
  ascii_of_all (by decide)

theorem month_ascii : ∀ m ∈ MONTHS.map asciiLower, m.length = 3 ∧ ∀ c ∈ m, c.toNat < 128 :=
  ascii_of_all (by decide)

theorem length_asciiLower (s : List Char) : (asciiLower s).length = s.length := List.length_map _

theorem ascii_of_asciiLower {s : List Char} (h : ∀ c ∈ asciiLower s, c.toNat < 128) :
    ∀ c ∈ s, c.toNat < 128 := by
  intro c hc
  have hlower := h _ (List.mem_map_of_mem hc)
  split at hlower
  · next hupper =>
    have : c.toNat ≤ 90 := hupper.2
    omega
  · exact hlower

theorem isWeekday_eq (h : CutsAtThree (trimCommas w)) :
    isWeekday w = .some (decide ((trimCommas w).take 3 ∈ WEEKDAYS)) := by
  unfold isWeekday
  rcases h with hshort | ⟨p, q, hw, hp⟩
  · have hnot : (trimCommas w).take 3 ∉ WEEKDAYS := by
      intro hmem
      have := length_bytes_ge (weekday_ascii _ hmem).1 (weekday_ascii _ hmem).2
      omega
    rw [firstThree_short hshort, decide_eq_false hnot]
    rfl
  · have hiff : (trimCommas w).take 3 ∈ WEEKDAYS ↔ p ∈ WEEKDAYS := by
      constructor
      · intro hmem
        rwa [take_eq_of_ascii hw hp (weekday_ascii _ hmem).1 (weekday_ascii _ hmem).2] at hmem
      · intro hmem
        rwa [take_eq_of_length hw (weekday_ascii _ hmem).1]
    rw [firstThree_append hw hp, decide_eq_decide.mpr hiff]
    rfl

theorem monthIndex_eq (h : CutsAtThree w) :
    ∃ month, monthIndex w = .some month ∧ (month.isSome ↔ IsMonth w) := by
  unfold monthIndex IsMonth
  rcases h with hshort | ⟨p, q, hw, hp⟩
  · refine ⟨none, by rw [firstThree_short hshort]; rfl, ?_⟩
    refine iff_of_false (by decide) fun hmem => ?_
    obtain ⟨hlength, hascii⟩ := month_ascii _ hmem
    rw [length_asciiLower] at hlength
    have := length_bytes_ge hlength (ascii_of_asciiLower hascii)
    omega
  · refine ⟨_, by rw [firstThree_append hw hp]; rfl, ?_⟩
    have hiff : asciiLower (w.take 3) ∈ MONTHS.map asciiLower ↔ asciiLower p ∈ MONTHS.map asciiLower := by
      constructor
      · intro hmem
        obtain ⟨hlength, hascii⟩ := month_ascii _ hmem
        rw [length_asciiLower] at hlength
        rwa [take_eq_of_ascii hw hp hlength (ascii_of_asciiLower hascii)] at hmem
      · intro hmem
        have hlength := (month_ascii _ hmem).1
        rw [length_asciiLower] at hlength
        rwa [take_eq_of_length hw hlength]
    rw [hiff, Option.bind_some, List.findIdx?_isSome]
    simp only [List.any_eq_true, decide_eq_true_eq, List.mem_map]

end FirstThree

/-! ## §6 The fallback -/

def withoutWeekday : List (List Char) → List (List Char)
  | [] => []
  | w :: words => if WEEKDAYS.contains ((trimCommas w).take 3) then words else w :: words

theorem datedWords_eq (s : List Char) :
    datedWords s = withoutWeekday (splitWhitespace (trimText s)) := by
  unfold datedWords withoutWeekday
  split <;> rfl

/-- The words that `dayMonth` cuts. -/
structure DayCuttable (words : List (List Char)) : Prop where
  first : ∀ w ∈ words.head?, CutsAtThree w
  second : ∀ w ∈ words.head?, ¬ IsMonth w → (parseFloat (trimCommas w)).isSome →
    ∀ m ∈ words[1]?, CutsAtThree m

theorem skipWeekday_eq (h : ∀ w ∈ words.head?, CutsAtThree (trimCommas w)) :
    skipWeekday words = .some (withoutWeekday words) := by
  cases words with
  | nil => rfl
  | cons w words =>
    simp only [skipWeekday, isWeekday_eq (h w rfl), withoutWeekday]
    by_cases hweekday : (trimCommas w).take 3 ∈ WEEKDAYS
    · rw [if_pos (List.contains_iff_mem.mpr hweekday), decide_eq_true hweekday]
      rfl
    · rw [if_neg (mt List.contains_iff_mem.mp hweekday), decide_eq_false hweekday]
      rfl

theorem skipWeekday_panic (h : ¬ ∀ w ∈ words.head?, CutsAtThree (trimCommas w)) :
    skipWeekday words = .panic := by
  cases words with
  | nil => exact absurd (fun w hw => absurd hw (by simp)) h
  | cons w words =>
    have hcut : ¬ CutsAtThree (trimCommas w) := fun hcut => h fun v hv => Option.some.inj hv ▸ hcut
    rw [skipWeekday, isWeekday, firstThree_panic hcut]
    rfl

theorem dayMonth_post (h : DayCuttable words) :
    (dayMonth words).Post fun _ => True := by
  refine .bind .ofOption fun w hw => ?_
  obtain ⟨month, hmonth, hiff⟩ := monthIndex_eq (h.first w hw)
  rw [hmonth, Outcome.some_bind]
  cases month with
  | some month => exact .bind .ofOption fun _ _ => .bind .ofOption fun _ _ => trivial
  | none =>
    have hnot : ¬ IsMonth w := fun hmonth => by cases hiff.mpr hmonth
    refine .bind .ofOption fun day hday => .bind .ofOption fun m hm => ?_
    obtain ⟨month, hmonth, -⟩ := monthIndex_eq (h.second w hw hnot (by rw [hday]; rfl) m hm)
    rw [hmonth, Outcome.some_bind]
    exact .bind .ofOption fun _ _ => trivial

theorem dayMonth_panic (h : ¬ DayCuttable words) :
    dayMonth words = .panic := by
  cases words with
  | nil => exact absurd ⟨fun w hw => absurd hw (by simp), fun w hw => absurd hw (by simp)⟩ h
  | cons w words =>
    by_cases hcut : CutsAtThree w
    · obtain ⟨month, hmonth, hiff⟩ := monthIndex_eq hcut
      -- the first word is a day, and the second is cut
      have hsecond : ¬ IsMonth w ∧ (parseFloat (trimCommas w)).isSome ∧
          ∃ m, words[0]? = some m ∧ ¬ CutsAtThree m := by
        by_contra hnone
        refine h ⟨fun v hv => Option.some.inj hv ▸ hcut, fun v hv hnot hday m hm => ?_⟩
        obtain rfl := Option.some.inj hv
        by_contra hm'
        exact hnone ⟨hnot, hday, m, hm, hm'⟩
      obtain ⟨hnot, hday, m, hm, hm'⟩ := hsecond
      obtain ⟨day, hday⟩ := Option.isSome_iff_exists.mp hday
      obtain rfl : month = none := by
        rw [← Option.not_isSome_iff_eq_none, hiff]
        exact hnot
      have hpanic : monthIndex m = .panic := by
        rw [monthIndex, firstThree_panic hm', Outcome.panic_bind]
      simp only [dayMonth, List.head?_cons, List.getElem?_cons_succ, hm, hday, Outcome.ofOption,
        Outcome.some_bind, hmonth, hpanic, Outcome.panic_bind]
    · simp only [dayMonth, List.head?_cons, Outcome.ofOption, Outcome.some_bind, monthIndex,
        firstThree_panic hcut, Outcome.panic_bind]

theorem cuttable_iff (s : List Char) : Cuttable s ↔
    (∀ w ∈ (splitWhitespace (trimText s)).head?, CutsAtThree (trimCommas w)) ∧
      DayCuttable (withoutWeekday (splitWhitespace (trimText s))) := by
  rw [← datedWords_eq]
  exact ⟨fun h => ⟨h.weekday, h.first, h.second⟩, fun h => ⟨h.1, h.2.first, h.2.second⟩⟩

theorem parseFallback_post (h : Cuttable s) :
    (parseFallback (trimText s)).Post fun x => ∃ t, x = timeClip t := by
  obtain ⟨hweekday, hday⟩ := (cuttable_iff s).mp h
  unfold parseFallback
  rw [skipWeekday_eq hweekday, Outcome.some_bind]
  refine .bind (dayMonth_post hday) fun p _ => .bind .ofOption fun _ _ => ?_
  exact .bind .ofOption fun _ _ => ⟨_, rfl⟩

theorem parseFallback_panic (h : ¬ Cuttable s) :
    parseFallback (trimText s) = .panic := by
  rw [cuttable_iff] at h
  unfold parseFallback
  by_cases hweekday : ∀ w ∈ (splitWhitespace (trimText s)).head?, CutsAtThree (trimCommas w)
  · rw [skipWeekday_eq hweekday, Outcome.some_bind,
      dayMonth_panic fun hday => h ⟨hweekday, hday⟩, Outcome.panic_bind]
  · rw [skipWeekday_panic hweekday, Outcome.panic_bind]

/-! ## §7 Texts of ASCII -/

theorem mem_of_mem_splitOnP {p : Char → Bool} {w : List Char} {c : Char} (hw : w ∈ s.splitOnP p)
    (hc : c ∈ w) : c ∈ s := by
  induction s generalizing w with
  | nil =>
    rw [List.splitOnP_nil, List.mem_singleton] at hw
    rwa [hw] at hc
  | cons a s ih =>
    rw [List.splitOnP_cons_eq_if_modifyHead] at hw
    split at hw
    · rcases List.mem_cons.mp hw with rfl | hw
      · cases hc
      · exact List.mem_cons_of_mem a (ih hw hc)
    · cases hsplit : s.splitOnP p with
      | nil => exact absurd hsplit (List.splitOnP_ne_nil p s)
      | cons v vs =>
        rw [hsplit, List.modifyHead_cons] at hw
        rcases List.mem_cons.mp hw with rfl | hw
        · rcases List.mem_cons.mp hc with rfl | hc
          · exact List.mem_cons_self
          · exact List.mem_cons_of_mem a (ih (hsplit ▸ List.mem_cons_self) hc)
        · exact List.mem_cons_of_mem a (ih (hsplit ▸ List.mem_cons_of_mem v hw) hc)

theorem cutsAtThree_of_ascii {w : List Char} (h : ∀ c ∈ w, c.toNat < 128) : CutsAtThree w := by
  by_cases hshort : (bytes w).length < 3
  · exact .inl hshort
  · rw [bytes_ascii h, List.length_map] at hshort
    refine .inr ⟨w.take 3, w.drop 3, (List.take_append_drop 3 w).symm, ?_⟩
    rw [bytes_ascii fun c hc => h c (List.mem_of_mem_take hc), List.length_map, List.length_take]
    omega

theorem cuttable_of_ascii (h : ∀ c ∈ trimText s, c.toNat < 128) : Cuttable s := by
  have hwords : ∀ w ∈ splitWhitespace (trimText s), ∀ c ∈ w, c.toNat < 128 := fun w hw c hc =>
    h c (mem_of_mem_splitOnP (List.mem_of_mem_filter hw) hc)
  have hdated : ∀ w ∈ datedWords s, ∀ c ∈ w, c.toNat < 128 := by
    intro w hw
    unfold datedWords at hw
    cases hsplit : splitWhitespace (trimText s) with
    | nil =>
      rw [hsplit] at hw
      cases hw
    | cons v vs =>
      simp only [hsplit] at hw
      refine hwords w (hsplit ▸ ?_)
      split at hw
      · exact List.mem_cons_of_mem v hw
      · exact hw
  refine ⟨fun w hw => cutsAtThree_of_ascii fun c hc => ?_, fun w hw => ?_, fun w _ _ _ m hm => ?_⟩
  · exact hwords w (List.mem_of_mem_head? hw) c ((List.rdropWhile_prefix _ w).mem hc)
  · exact cutsAtThree_of_ascii (hdated w (List.mem_of_mem_head? hw))
  · exact cutsAtThree_of_ascii (hdated m (List.mem_of_getElem? hm))

/-! ## §8 Texts that are read -/

theorem readsDate_of_post (h : (parseDate s).Post fun x => ∃ t, x = timeClip t) :
    ReadsDate s := by
  unfold ReadsDate
  cases hparse : parseDate s with
  | panic =>
    rw [hparse] at h
    exact h.elim
  | none => exact .inl rfl
  | some x =>
    rw [hparse] at h
    obtain ⟨t, rfl⟩ := h
    rcases timeClip_cases t with ht | ⟨n, hn, ht⟩
    · exact .inr (.inl (by rw [ht]))
    · exact .inr (.inr ⟨n, hn, by rw [ht]⟩)

/-- **A text is read without a panic exactly if its words can be cut** behind three bytes. -/
theorem readsDate_iff (s : List Char) : ReadsDate s ↔ Cuttable s := by
  have hiso := parseIso_post (trimText s)
  constructor
  · intro hreads
    by_contra hcut
    have hpanic : parseDate s = .panic := by
      have hne : trimText s ≠ [] := by
        intro hempty
        exact hcut (cuttable_of_ascii (by simp [hempty]))
      simp only [parseDate, if_neg hne]
      cases hparse : parseIso (trimText s) with
      | panic => rfl
      | none => exact parseFallback_panic hcut
      | some x =>
        rw [hparse] at hiso
        exact absurd (cuttable_of_ascii hiso.1) hcut
    rcases hreads with h | h | ⟨_, -, h⟩ <;> rw [hpanic] at h <;> cases h
  · intro hcut
    apply readsDate_of_post
    by_cases hempty : trimText s = []
    · simp only [parseDate, if_pos hempty]
      exact trivial
    · simp only [parseDate, if_neg hempty]
      cases hparse : parseIso (trimText s) with
      | panic => exact absurd hparse hiso.ne_panic
      | none => exact parseFallback_post hcut
      | some x =>
        rw [hparse] at hiso
        exact hiso.2

/-- `Date.parse("aaé")`. -/
theorem not_readsDate : ¬ ∀ s, ReadsDate s := by
  intro h
  have hpanic : parseDate ['a', 'a', 'é'] = .panic := rfl
  rcases h ['a', 'a', 'é'] with h | h | ⟨_, -, h⟩ <;> rw [hpanic] at h <;> cases h

end V12.DateTime
