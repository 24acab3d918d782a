/-
V12.Engine.StringRegExpTheorems — where the two families of RegExp methods agree.

Both families walk the same chain: `attempt` answers one search, and the next
one starts at `Match.next`. The loops of either side are described by the list
of matches on that chain.
-/
import V12.Engine.StringRegExp
import V12.Lib.Surrogates

namespace V12.Engine

open Lib.Utf16

variable {P : Type}

/-! ## §1 The matcher and its chain of matches -/

def Regex.Bounded (rx : Regex P) : Prop := ∀ p input i m, rx.exec p input i = some m →
  i ≤ m.start ∧ m.start ≤ m.stop ∧ m.stop ≤ input.length

/-- What `v12-regex` says of the matcher: a search finds a span at or behind its
start; `g` and `y` are recorded only; and where nothing is found, nothing is
found from the next character on. -/
structure Regex.Documented (rx : Regex P) : Prop where
  found : ∀ p input i m, rx.exec p input i = some m →
    i ≤ m.start ∧ m.start ≤ m.stop ∧ m.stop ≤ input.length
  iteration : ∀ source f global sticky p, rx.compile source f = .ok p →
    ∃ p', rx.compile source { f with global, sticky } = .ok p' ∧ rx.exec p' = rx.exec p
  exhausted : ∀ source flags p input i, compilePattern rx source flags = .ok p →
    rx.exec p input i = none → rx.exec p input (advance flags input i) = none

/-- One search of `exec`. -/
def RegExpObject.attempt (o : RegExpObject) (rx : Regex P) (p : P) (input : Units) (i : Nat) :
    Option Match := (rx.exec p input i).filter fun m => !o.has 'y' || m.start == i

/-- The `lastIndex` behind a match. -/
def Match.next (m : Match) : Nat := if m.stop = m.start then m.start + 1 else m.stop

/-- The matches that a loop from index 0 on comes to. -/
inductive Found (attempt : Nat → Option Match) : Match → Prop where
  | first {m} : attempt 0 = some m → Found attempt m
  | next {m m'} : Found attempt m → attempt m.next = some m' → Found attempt m'

def matchesFrom (attempt : Nat → Option Match) : Nat → Nat → List Match
  | 0, _ => []
  | fuel + 1, i =>
    match attempt i with
    | none => []
    | some m => m :: matchesFrom attempt fuel m.next

/-- A property of the matches from index `i` on. -/
def AllFrom (attempt : Nat → Option Match) (i : Nat) (C : Match → Prop) : Prop :=
  ∀ fuel, ∀ m ∈ matchesFrom attempt fuel i, C m

-- The equations are made here, ahead of the proofs below that all ask for them.
attribute [local simp] Except.mapError Match.next matchesFrom RegExpObject.exec

theorem AllFrom.head {attempt : Nat → Option Match} {i : Nat} {C : Match → Prop} {m : Match}
    (h : AllFrom attempt i C) (hm : attempt i = some m) : C m :=
  h 1 m (by simp [matchesFrom, hm])

theorem AllFrom.tail {attempt : Nat → Option Match} {i : Nat} {C : Match → Prop} {m : Match}
    (h : AllFrom attempt i C) (hm : attempt i = some m) : AllFrom attempt m.next C := by
  intro fuel m' hm'
  refine h (fuel + 1) m' ?_
  rw [matchesFrom, hm]
  exact List.mem_cons_of_mem _ hm'

theorem allFrom_of_found {attempt : Nat → Option Match} {C : Match → Prop}
    (h : ∀ m, Found attempt m → C m) : AllFrom attempt 0 C := by
  have hgen (fuel : Nat) : ∀ i, (∀ m, attempt i = some m → Found attempt m) →
      ∀ m ∈ matchesFrom attempt fuel i, C m := by
    induction fuel with
    | zero => simp [matchesFrom]
    | succ fuel ih =>
      intro i hi m hm
      rw [matchesFrom] at hm
      cases hattempt : attempt i with
      | none => simp [hattempt] at hm
      | some m₀ =>
        rw [hattempt] at hm
        rcases List.mem_cons.mp hm with rfl | hm
        · exact h m (hi m hattempt)
        · exact ih m₀.next (fun m' hm' => (hi m₀ hattempt).next hm') m hm
  exact fun fuel => hgen fuel 0 fun m hm => .first hm

section Attempt

variable {rx : Regex P} {p : P} {o : RegExpObject} {input : Units} {i : Nat} {m : Match}

theorem attempt_bounds (hfound : rx.Bounded) (h : o.attempt rx p input i = some m) :
    i ≤ m.start ∧ m.start ≤ m.stop ∧ m.stop ≤ input.length :=
  hfound p input i m (Option.filter_eq_some_iff.mp h).1

theorem lt_next (hfound : rx.Bounded) (h : o.attempt rx p input i = some m) :
    i < m.next ∧ m.next ≤ input.length + 1 := by
  obtain ⟨hi, hstart, hstop⟩ := attempt_bounds hfound h
  unfold Match.next
  split <;> omega

theorem attempt_of_lt (hfound : rx.Bounded) (h : input.length < i) :
    o.attempt rx p input i = none := by
  cases hm : o.attempt rx p input i with
  | none => rfl
  | some m =>
    have := attempt_bounds hfound hm
    omega

theorem length_matchesFrom (hfound : rx.Bounded) (fuel : Nat) :
    (matchesFrom (o.attempt rx p input) fuel i).length ≤ input.length + 1 - i := by
  induction fuel generalizing i with
  | zero => simp [matchesFrom]
  | succ fuel ih =>
    rw [matchesFrom]
    cases hm : o.attempt rx p input i with
    | none => simp
    | some m =>
      have hnext := lt_next hfound hm
      have hbounds := attempt_bounds hfound hm
      have := @ih m.next
      simp only [List.length_cons]
      omega

theorem setting_writable (v : Nat) (r : Option Match) (h : o.writable = true) :
    o.setting v r = ({ o with lastIndex := v }, .ok r) := by
  simp [RegExpObject.setting, RegExpObject.setLastIndex, h]

theorem setting_readOnly (v : Nat) (r : Option Match) (h : o.writable = false) :
    o.setting v r = (o, .error .readOnlyLastIndex) := by
  simp [RegExpObject.setting, RegExpObject.setLastIndex, h]

theorem startIndex_of_tracks (h : o.tracks = true) : o.startIndex = o.lastIndex := by
  simp [RegExpObject.startIndex, h]

theorem exec_tracks (hfound : rx.Bounded) (htracks : o.tracks = true) :
    o.exec rx (.ok p) input = match o.attempt rx p input o.lastIndex with
      | none => o.setting 0 none
      | some m => o.setting m.next (some m) := by
  unfold RegExpObject.exec RegExpObject.pastEnd
  rw [startIndex_of_tracks htracks]
  by_cases hpast : input.length < o.lastIndex
  · rw [attempt_of_lt hfound hpast, if_pos (by simpa using hpast), if_pos htracks]
  · rw [if_neg (by simpa using hpast), RegExpObject.runProgram, startIndex_of_tracks htracks]
    simp only [RegExpObject.attempt]
    cases hm : rx.exec p input o.lastIndex with
    | none => simp [htracks]
    | some m =>
      by_cases hy : (o.has 'y' && m.start != o.lastIndex) = true
      · have hdrop : (!o.has 'y' || m.start == o.lastIndex) = false := by
          simpa using hy
        simp only [hy, if_true, Option.filter_some, hdrop, Bool.false_eq_true, if_false]
      · have hkeep : (!o.has 'y' || m.start == o.lastIndex) = true := by
          by_cases h : o.has 'y' = true <;> simp_all
        simp only [hy, htracks, if_true, Option.filter_some, hkeep, Bool.false_eq_true, if_false,
          Match.next]

theorem runExec_tracks (hfound : rx.Bounded) (hp : compilePattern rx o.source o.flags = .ok p)
    (htracks : o.tracks = true) (hwritable : o.writable = true) :
    runExec rx o input = match o.attempt rx p input o.lastIndex with
      | none => ({ o with lastIndex := 0 }, .ok none)
      | some m => ({ o with lastIndex := m.next }, .ok (some m)) := by
  rw [runExec, hp, exec_tracks hfound htracks]
  cases o.attempt rx p input o.lastIndex with
  | none => simp [setting_writable _ _ hwritable, Except.mapError]
  | some m => simp [setting_writable _ _ hwritable, Except.mapError]

theorem runExec_readOnly (hfound : rx.Bounded) (hp : compilePattern rx o.source o.flags = .ok p)
    (htracks : o.tracks = true) (hwritable : o.writable = false) :
    runExec rx o input = (o, .error (.exec .readOnlyLastIndex)) := by
  rw [runExec, hp, exec_tracks hfound htracks]
  cases o.attempt rx p input o.lastIndex with
  | none => simp [setting_readOnly _ _ hwritable, Except.mapError]
  | some m => simp [setting_readOnly _ _ hwritable, Except.mapError]

theorem attempt_of_not_sticky (hy : o.has 'y' = false) (i : Nat) :
    o.attempt rx p input i = rx.exec p input i := by
  rw [RegExpObject.attempt]
  cases rx.exec p input i <;> simp [hy]

theorem start_of_not_tracks (htracks : o.tracks = false) :
    o.startIndex = 0 ∧ o.has 'y' = false := by
  refine ⟨by simp [RegExpObject.startIndex, htracks], ?_⟩
  simp only [RegExpObject.tracks, Bool.or_eq_false_iff] at htracks
  exact htracks.2

theorem attempt_of_not_tracks (htracks : o.tracks = false) :
    o.attempt rx p input o.startIndex = rx.exec p input 0 := by
  obtain ⟨hstart, hy⟩ := start_of_not_tracks htracks
  rw [hstart, attempt_of_not_sticky hy]

theorem runExec_plain (hp : compilePattern rx o.source o.flags = .ok p)
    (htracks : o.tracks = false) : runExec rx o input = (o, .ok (rx.exec p input 0)) := by
  obtain ⟨hstart, hy⟩ := start_of_not_tracks htracks
  unfold runExec RegExpObject.exec RegExpObject.pastEnd RegExpObject.runProgram
  rw [hstart, hp]
  cases hm : rx.exec p input 0 with
  | none => simp [htracks, Except.mapError, hm]
  | some m => simp [htracks, Except.mapError, hm, hy]

end Attempt

/-! ## §2 The loops -/

/-- Where the loops of both families end alike: no match on the chain is an empty
one at the end of the input. -/
def Match.Inner (input : Units) (m : Match) : Prop := ¬ (m.stop = m.start ∧ m.start = input.length)

section Loops

variable {rx : Regex P} {p : P} {o : RegExpObject} {input : Units} {i fuel : Nat} {m : Match}

theorem next_le_of_inner (hfound : rx.Bounded) (h : o.attempt rx p input i = some m)
    (hinner : m.Inner input) : m.next ≤ input.length := by
  have hbounds := attempt_bounds hfound h
  unfold Match.next
  unfold Match.Inner at hinner
  split <;> omega

theorem collectMatchSpans_eq_map (text : Text) (fuel : Nat) (o : RegExpObject) (start : Nat) :
    collectMatchSpans rx text (encode text) true fuel o start =
      (collectMatches rx (encode text) fuel o start).mapOk
        (List.map (matchSpan text (encode text))) := by
  have hlen : unitLen text = (encode text).length := rfl
  induction fuel generalizing o start with
  | zero => rfl
  | succ fuel ih =>
    rw [collectMatchSpans, collectMatches]
    rcases runExec rx o (encode text) with ⟨o₁, e | m | m⟩
    · rfl
    · rfl
    · simp only
      rcases (if o₁.lastIndex ≤ start then writeLastIndex o₁ (start + 1) else (o₁, .ok ())) with
        ⟨o₂, e | u⟩
      · rfl
      · simp only [hlen, ih, Bool.not_true, Bool.or_false, decide_eq_true_eq]
        split
        case isTrue => rfl
        case isFalse =>
          unfold Answer.mapOk
          rw [Option.map_map, Option.map_map]
          refine congrArg (Option.map · _) (funext fun answer => ?_)
          obtain ⟨o₃, e | ms⟩ := answer
          · rfl
          · rfl

variable (hfound : rx.Bounded) (hp : compilePattern rx o.source o.flags = .ok p)
  (htracks : o.tracks = true) (hwritable : o.writable = true)

include hfound hp htracks hwritable

theorem runExec_at (i : Nat) :
    runExec rx { o with lastIndex := i } input = match o.attempt rx p input i with
      | none => ({ o with lastIndex := 0 }, .ok none)
      | some m => ({ o with lastIndex := m.next }, .ok (some m)) :=
  runExec_tracks (o := { o with lastIndex := i }) hfound hp htracks hwritable

theorem drain_eq (hpos : 0 < fuel) (hfuel : input.length + 2 ≤ fuel + i) :
    drain rx input true fuel { o with lastIndex := i } =
      some ({ o with lastIndex := 0 }, .ok (matchesFrom (o.attempt rx p input) fuel i)) := by
  induction fuel generalizing i with
  | zero => omega
  | succ fuel ih =>
    rw [drain, runExec_at hfound hp htracks hwritable, matchesFrom]
    cases hm : o.attempt rx p input i with
    | none => rfl
    | some m =>
      obtain ⟨hlt, hle⟩ := lt_next hfound hm
      simp only [if_true]
      rw [ih (by omega) (by omega)]
      rfl

theorem collectMatches_eq (hinner : AllFrom (o.attempt rx p input) i (Match.Inner input))
    (hi : i ≤ input.length) (hfuel : input.length + 2 ≤ fuel + i) :
    collectMatches rx input fuel { o with lastIndex := i } i =
      some ({ o with lastIndex := 0 }, .ok (matchesFrom (o.attempt rx p input) fuel i)) := by
  induction fuel generalizing i with
  | zero => omega
  | succ fuel ih =>
    rw [collectMatches, runExec_at hfound hp htracks hwritable, matchesFrom]
    cases hm : o.attempt rx p input i with
    | none => rfl
    | some m =>
      have hlt := (lt_next hfound hm).1
      have hle := next_le_of_inner hfound hm (hinner.head hm)
      simp only [Nat.not_le.mpr hlt, if_false, Nat.not_lt.mpr hle]
      rw [ih (hinner.tail hm) hle (by omega)]
      rfl

theorem collectMatchSpans_eq {text : Text} (hinput : input = encode text)
    (hinner : AllFrom (o.attempt rx p input) i (Match.Inner input))
    (hi : i ≤ input.length) (hfuel : input.length + 2 ≤ fuel + i) :
    collectMatchSpans rx text input true fuel { o with lastIndex := i } i =
      some ({ o with lastIndex := 0 },
        .ok ((matchesFrom (o.attempt rx p input) fuel i).map (matchSpan text input))) := by
  subst hinput
  rw [collectMatchSpans_eq_map, collectMatches_eq hfound hp htracks hwritable hinner hi hfuel]
  rfl

end Loops

/-! ## §3 Matches at characters, and templates -/

/-- A match of basic-plane characters that starts at a character of the text. -/
def Match.Plain (text : Text) (m : Match) : Prop :=
  ∃ a w b, text = a ++ w ++ b ∧ Bmp w ∧ m.start = unitLen a ∧ m.stop = unitLen a + unitLen w

/-- A template that both expanders read alike: no `$0`, no prefix or suffix, and
no two digits that name a group. -/
def PlainTemplate (groups : Nat) : Text → Prop
  | [] => True
  | '$' :: c :: rest =>
    if c = '$' ∨ c = '&' then PlainTemplate groups rest
    else if c = '\x60' ∨ c = '\x27' then False
    else if c.isDigit then
      c ≠ '0' ∧ (∀ d ∈ rest.head?, d.isDigit →
        groups < (c.toNat - '0'.toNat) * 10 + (d.toNat - '0'.toNat)) ∧ PlainTemplate groups rest
    else PlainTemplate groups rest
  | _ :: rest => PlainTemplate groups rest

theorem isDigit_toNat {c : Char} (h : c.isDigit = true) : 48 ≤ c.toNat ∧ c.toNat ≤ 57 := by
  simp only [Char.isDigit, Bool.and_eq_true, decide_eq_true_eq] at h
  exact h

theorem expandedLen_eq (whole : Text) (groups : List Text) (template : Text) :
    expandedLen whole groups template = byteLen (expandReplacement whole groups template) := by
  fun_induction expandReplacement whole groups template with
  | case1 => rfl
  | case2 rest ih => simp [expandedLen, ih]; rfl
  | case3 rest h ih => simp [expandedLen, ih]
  | case4 c rest hd ha hdigit ih => simp [expandedLen, hd, ha, hdigit, ih]
  | case5 c rest hd ha hdigit ih =>
    have hdollar : Char.utf8Size '$' = 1 := rfl
    simp [expandedLen, hd, ha, hdigit, ih, hdollar]
    omega
  | case6 c rest h ih =>
    rw [expandedLen.eq_def]
    split
    · simp_all
    · simp_all
    · simp_all

open getSubstitution (captureText)

variable {template a : Text} {rx : Regex P} {p : P} {input : Units}

/-- **The two template expanders agree on plain templates.** -/
theorem expandReplacement_eq {whole : Text} {captures : List (Option Text)} {groups : List Text}
    (hgroups : ∀ n, 1 ≤ n → n ≤ 9 → groupText whole groups n = captureText captures n)
    (position : Nat) (input : Text) (h : PlainTemplate captures.length template) :
    expandReplacement whole groups template =
      getSubstitution whole captures position input template := by
  fun_induction expandReplacement whole groups template with
  | case1 => rfl
  | case2 rest ih => simp_all [PlainTemplate, getSubstitution]
  | case3 rest hd ih => simp_all [PlainTemplate, getSubstitution]
  | case4 c rest hd ha hdigit ih =>
    simp only [PlainTemplate, hd, ha, or_self, if_false, hdigit, if_true] at h
    split at h
    · cases h
    · rename_i hquotes
      obtain ⟨hzero, htwo, hrest⟩ := h
      have hrange := isDigit_toNat hdigit
      have hpos : c.toNat ≠ '0'.toNat := fun heq => hzero (Char.toNat_inj.mp heq)
      have hnat : '0'.toNat = 48 := rfl
      rw [not_or] at hquotes
      rw [hgroups _ (by omega) (by omega), ih hrest]
      simp only [getSubstitution, hd, ha, hquotes.1, hquotes.2, if_false, hdigit, if_true]
      cases rest with
      | nil => simp [getSubstitution]
      | cons d rest =>
        -- a second digit names no group
        refine (if_neg ?_).symm
        rintro ⟨hdigit', -, hle⟩
        have := htwo d rfl hdigit'
        omega
  | case5 c rest hd ha hdigit ih =>
    simp only [PlainTemplate, hd, ha, or_self, if_false, hdigit, Bool.false_eq_true] at h
    split at h
    · cases h
    · rename_i hquotes
      rw [not_or] at hquotes
      rw [ih h]
      simp only [getSubstitution, hd, ha, hquotes.1, hquotes.2, if_false, hdigit, Bool.false_eq_true]
      rw [getSubstitution.eq_3 _ _ _ _ c rest (fun _ _ heq => absurd heq hd)]
  | case6 c rest hne ih =>
    rw [PlainTemplate.eq_3 _ c rest hne] at h
    rw [getSubstitution.eq_3 _ _ _ _ c rest hne, ih h]

/-! ## §4 Splicing -/

theorem whole_of_span {w b : Text} {m : Match} (hw : Bmp w) (hstart : m.start = unitLen a)
    (hstop : m.stop = unitLen a + unitLen w) : m.whole (encode (a ++ w ++ b)) = w := by
  rw [Match.whole, elementText, hstart, hstop, slice_cut, map_unitChar_encode hw]

theorem matchSpan_of_span {w b : Text} {m : Match} (hw : Bmp w) (hstart : m.start = unitLen a)
    (hstop : m.stop = unitLen a + unitLen w) (hlen : (encode (a ++ w ++ b)).length < 2 ^ 30) :
    matchSpan (a ++ w ++ b) (encode (a ++ w ++ b)) m =
      ⟨byteLen a, byteLen a + byteLen w,
        (List.range 9).map fun i => (m.captures (encode (a ++ w ++ b)))[i]?.join⟩ := by
  have hsmi : asSmi m.start = some (unitLen a) := by
    have hle : unitLen a ≤ (encode (a ++ w ++ b)).length := by
      simp only [encode_append, List.length_append, unitLen]
      omega
    rw [asSmi, if_pos (by omega), hstart]
  have hcut : ceilBoundary (a ++ w ++ b) (byteLen a + byteLen w) = byteLen a + byteLen w := by
    rw [← byteLen_append, ceilBoundary_cut]
  have hmin : min (byteLen a + byteLen w) (byteLen (a ++ w ++ b)) = byteLen a + byteLen w := by
    rw [byteLen_append, byteLen_append]
    omega
  unfold matchSpan
  simp only [whole_of_span hw hstart hstop, hsmi, Option.getD_some]
  rw [List.append_assoc a w b, byteOffset_cut, ← List.append_assoc, hmin, hcut]

theorem exists_gap {a₀ r s : Text} (h : a₀ ++ r = a ++ s) (hle : unitLen a₀ ≤ unitLen a) :
    ∃ g, a = a₀ ++ g ∧ r = g ++ s := by
  rcases List.append_eq_append_iff.mp h with ⟨g, rfl, rfl⟩ | ⟨c, rfl, rfl⟩
  · exact ⟨g, rfl, rfl⟩
  · cases c with
    | nil => exact ⟨[], by simp, by simp⟩
    | cons d c =>
      have hpos := length_encodeChar_pos d
      simp only [unitLen, encode_append, encode_cons, List.length_append] at hle
      omega

theorem Match.Plain.cut {text : Text} {m : Match} {a₀ r : Text} (hlen : (encode text).length < 2 ^ 30)
    (htext : text = a₀ ++ r) (hm : m.Plain text) (hle : unitLen a₀ ≤ m.start) :
    ∃ g w b, text = a₀ ++ g ++ w ++ b ∧ m.whole (encode text) = w ∧
      m.stop = unitLen (a₀ ++ g ++ w) ∧ slice (encode text) (unitLen a₀) m.start = encode g ∧
      matchSpan text (encode text) m = ⟨byteLen (a₀ ++ g), byteLen (a₀ ++ g ++ w),
        (List.range 9).map fun i => (m.captures (encode text))[i]?.join⟩ ∧
      sliceBytes text (byteLen a₀) (byteLen (a₀ ++ g)) = g ∧
      sliceBytes text (byteLen (a₀ ++ g)) (byteLen (a₀ ++ g ++ w)) = w := by
  obtain ⟨a, w, b, heq, hw, hstart, hstop⟩ := hm
  rw [hstart] at hle
  obtain ⟨g, rfl, -⟩ := exists_gap (htext.symm.trans (heq.trans (List.append_assoc ..))) hle
  refine ⟨g, w, b, heq, ?_, ?_, ?_, ?_, ?_, ?_⟩
  · rw [heq, whole_of_span hw hstart hstop]
  · rw [hstop, unitLen_append (a₀ ++ g) w]
  · have hcut := slice_cut a₀ g (w ++ b)
    rw [hstart, unitLen_append, heq, List.append_assoc (a₀ ++ g) w b, hcut]
  · rw [byteLen_append (a₀ ++ g) w]
    rw [heq] at hlen ⊢
    exact matchSpan_of_span hw hstart hstop hlen
  · rw [byteLen_append, heq, List.append_assoc (a₀ ++ g) w b, sliceBytes_cut]
  · rw [byteLen_append (a₀ ++ g) w, heq, sliceBytes_cut]

/-- The result of `@@replace`, from the matches. -/
def spliceUnits (text : Text) (input : Units) (template : Text) : List Match → Text → Nat → Text
  | [], out, cursor => out ++ decode (input.drop cursor)
  | m :: ms, out, cursor =>
    spliceUnits text input template ms (out ++ decode (slice input cursor m.start) ++
      getSubstitution (m.whole input) (m.captures input) m.start text template) m.stop

theorem byteLen_le_spliceUnits (text : Text) (input : Units) (template : Text) (ms : List Match)
    (out : Text) (cursor : Nat) :
    byteLen out ≤ byteLen (spliceUnits text input template ms out cursor) := by
  induction ms generalizing out cursor with
  | nil => simp [spliceUnits]
  | cons m ms ih =>
    refine Nat.le_trans ?_ (ih _ _)
    simp only [byteLen_append]
    omega

def Ordered : Nat → List Match → Prop
  | _, [] => True
  | cursor, m :: ms => cursor ≤ m.start ∧ Ordered m.stop ms

theorem Ordered.mono {c c' : Nat} {ms : List Match} (h : Ordered c' ms) (hle : c ≤ c') :
    Ordered c ms := by
  cases ms with
  | nil => trivial
  | cons m ms => exact ⟨Nat.le_trans hle h.1, h.2⟩

theorem stop_le_next (m : Match) : m.stop ≤ m.next := by
  unfold Match.next
  split <;> omega

theorem ordered_matchesFrom {o : RegExpObject} (hfound : rx.Bounded) (fuel i : Nat) :
    Ordered i (matchesFrom (o.attempt rx p input) fuel i) := by
  induction fuel generalizing i with
  | zero => trivial
  | succ fuel ih =>
    rw [matchesFrom]
    cases hm : o.attempt rx p input i with
    | none => trivial
    | some m => exact ⟨(attempt_bounds hfound hm).1, (ih m.next).mono (stop_le_next m)⟩

theorem groupText_captures (whole : Text) (captures : List (Option Text)) {n : Nat} (hpos : 1 ≤ n)
    (hle : n ≤ 9) : groupText whole
      (((List.range 9).map fun i => captures[i]?.join).map (·.getD [])) n =
        captureText captures n := by
  have hn : n ≠ 0 := by omega
  rw [groupText, captureText, if_neg hn, if_neg hn, List.getElem?_map, List.getElem?_map,
    List.getElem?_range (by omega)]
  rfl

/-- **Byte splicing is unit splicing** on plain matches and templates, up to the
length cap. -/
theorem spliceSpans_eq {text : Text} (hlen : (encode text).length < 2 ^ 30) {ms : List Match}
    {out : Text} (a₀ r : Text) (htext : text = a₀ ++ r) (hordered : Ordered (unitLen a₀) ms)
    (hms : ∀ m ∈ ms, m.Plain text ∧ PlainTemplate m.groups.length template)
    (hfits :
      byteLen (spliceUnits text (encode text) template ms out (unitLen a₀)) ≤ maxReplaceLen) :
    spliceSpans text template (ms.map (matchSpan text (encode text))) out (byteLen a₀) =
      .ok (spliceUnits text (encode text) template ms out (unitLen a₀)) := by
  induction ms generalizing out a₀ r with
  | nil =>
    have hdrop : (encode a₀ ++ encode r).drop (unitLen a₀) = encode r := List.drop_left
    subst htext
    rw [List.map_nil, spliceSpans, spliceUnits, dropBytes_cut, encode_append, hdrop, decode_encode]
  | cons m ms ih =>
    obtain ⟨hplain, htemplate⟩ := hms m List.mem_cons_self
    obtain ⟨hle, hordered⟩ := hordered
    obtain ⟨g, w, b, heq, hwhole, hstop, hgap, hspan, hbetween, hslice⟩ :=
      hplain.cut hlen htext hle
    have hcaptures : (m.captures (encode text)).length = m.groups.length := by
      simp [Match.captures]
    have hgroups (n : Nat) (h1 : 1 ≤ n) (h9 : n ≤ 9) :=
      groupText_captures w (m.captures (encode text)) h1 h9
    have hexpand := expandReplacement_eq hgroups m.start text (hcaptures ▸ htemplate)
    have hstep : spliceUnits text (encode text) template (m :: ms) out (unitLen a₀) =
        spliceUnits text (encode text) template ms
          (out ++ g ++ getSubstitution w (m.captures (encode text)) m.start text template)
          (unitLen (a₀ ++ g ++ w)) := by
      rw [spliceUnits, hwhole, hgap, hstop, decode_encode]
    rw [hstep] at hfits ⊢
    have hsofar := Nat.le_trans (byteLen_le_spliceUnits ..) hfits
    rw [List.map_cons, hspan, spliceSpans]
    simp only [hslice, hbetween, expandedLen_eq, hexpand]
    rw [if_neg]
    · refine ih _ _ heq ?_ (fun m' hm' => hms m' (List.mem_cons_of_mem _ hm')) hfits
      rwa [hstop] at hordered
    · simp only [byteLen_append] at hsofar ⊢
      omega

theorem unitLen_whole {m : Match} (hstart : m.start ≤ m.stop) (hstop : m.stop ≤ input.length) :
    unitLen (m.whole input) = m.stop - m.start := by
  rw [unitLen, Match.whole, elementText, encode_map_unitChar, List.length_map, slice,
    List.length_take, List.length_drop]
  omega

theorem replaceLoop_eq {o : RegExpObject} {text out : Text} {i cursor fuel : Nat}
    (hfound : rx.Bounded) (hp : compilePattern rx o.source o.flags = .ok p)
    (htracks : o.tracks = true) (hwritable : o.writable = true) (hcursor : cursor ≤ i)
    (hpos : 0 < fuel) (hfuel : input.length + 2 ≤ fuel + i) :
    replaceLoop rx text input template true fuel { o with lastIndex := i } out cursor =
      some ({ o with lastIndex := 0 }, .ok (spliceUnits text input template
        (matchesFrom (o.attempt rx p input) fuel i) out cursor)) := by
  induction fuel generalizing i cursor out with
  | zero => omega
  | succ fuel ih =>
    rw [replaceLoop, runExec_at hfound hp htracks hwritable, matchesFrom]
    cases hm : o.attempt rx p input i with
    | none => rfl
    | some m =>
      obtain ⟨hstart, hstop, hend⟩ := attempt_bounds hfound hm
      obtain ⟨hlt, hle⟩ := lt_next hfound hm
      have hmin : min m.start input.length = m.start := by omega
      have hback : min (m.start + unitLen (m.whole input)) input.length = m.stop := by
        rw [unitLen_whole hstop hend]
        omega
      simp only [hmin, hback, Nat.not_lt.mpr (Nat.le_trans hcursor hstart), if_false, if_true]
      rw [ih (stop_le_next m) (by omega) (by omega), spliceUnits]

/-! ## §5 `match`, `matchAll`, `search` and `replace` -/

section Methods

variable {rx : Regex P} {p : P} {o : RegExpObject} {s : Units} {fuel : Nat}

theorem with_lastIndex {i : Nat} (h : o.lastIndex = i) : { o with lastIndex := i } = o := by
  subst h
  rfl

theorem writeLastIndex_writable (v : Nat) (h : o.writable = true) :
    writeLastIndex o v = ({ o with lastIndex := v }, .ok ()) := by
  simp [writeLastIndex, RegExpObject.setLastIndex, h]

theorem writeLastIndex_readOnly (v : Nat) (h : o.writable = false) :
    writeLastIndex o v = (o, .error (.exec .readOnlyLastIndex)) := by
  simp [writeLastIndex, RegExpObject.setLastIndex, h]

theorem tracks_of_global (h : o.has 'g' = true) : o.tracks = true := by
  simp [RegExpObject.tracks, h]

theorem sliceBytes_matchSpan {text : Text} {m : Match} (hlen : (encode text).length < 2 ^ 30)
    (hm : m.Plain text) : sliceBytes text (matchSpan text (encode text) m).start
      (matchSpan text (encode text) m).stop = m.whole (encode text) := by
  obtain ⟨a, w, b, rfl, hw, hstart, hstop⟩ := hm
  rw [matchSpan_of_span hw hstart hstop hlen, whole_of_span hw hstart hstop, sliceBytes_cut]

/-- **`match`** agrees without `g`, and with it from `lastIndex` 0 on. -/
theorem match_agrees (hdoc : rx.Documented) (hp : compilePattern rx o.source o.flags = .ok p)
    (hlen : (subject s).length < 2 ^ 30) (hfuel : (subject s).length + 2 ≤ fuel)
    (h : o.has 'g' = true → o.lastIndex = 0 ∧ ∀ m, Found (o.attempt rx p (subject s)) m →
      m.Plain (decode s) ∧ m.Inner (subject s)) :
    ∃ a, stringMatch rx fuel o s = some a ∧ symbolMatch rx fuel o s = some a := by
  unfold stringMatch symbolMatch
  by_cases hg : o.has 'g' = true
  · obtain ⟨hzero, hfound⟩ := h hg
    have htracks := tracks_of_global hg
    simp only [hg, if_true]
    cases hwritable : o.writable with
    | false =>
      obtain ⟨fuel, rfl⟩ : ∃ n, fuel = n + 1 := ⟨fuel - 1, by omega⟩
      refine ⟨(o, .error (.exec .readOnlyLastIndex)), ?_, ?_⟩
      · rw [collectMatchSpans, runExec_readOnly hdoc.found hp htracks hwritable]
        rfl
      · rw [writeLastIndex_readOnly 0 hwritable]
    | true =>
      have hinner := allFrom_of_found fun m hm => (hfound m hm).2
      have hplain := allFrom_of_found fun m hm => (hfound m hm).1
      have hspans := collectMatchSpans_eq hdoc.found hp htracks hwritable (rfl : subject s = encode (decode s))
        hinner (Nat.zero_le _) hfuel
      have hdrain := drain_eq hdoc.found hp htracks hwritable (i := 0) (by omega)
        (hfuel : (subject s).length + 2 ≤ fuel + 0)
      rw [with_lastIndex hzero] at hspans hdrain
      have hpieces : (matchesFrom (o.attempt rx p (subject s)) fuel 0).map
          (fun m => encode (sliceBytes (decode s) (matchSpan (decode s) (subject s) m).start
            (matchSpan (decode s) (subject s) m).stop)) =
          (matchesFrom (o.attempt rx p (subject s)) fuel 0).map fun m => encode (m.whole (subject s)) :=
        List.map_congr_left fun m hm => congrArg encode (sliceBytes_matchSpan hlen (hplain fuel m hm))
      simp only [writeLastIndex_writable 0 hwritable, with_lastIndex hzero, hspans, hdrain,
        Answer.mapOk, Option.map_some, Except.map, List.isEmpty_map, List.map_map]
      refine ⟨_, rfl, ?_⟩
      simp only [Function.comp_def, hpieces]
  · exact ⟨_, by rw [if_neg hg], by rw [if_neg hg]⟩

/-- **`matchAll`**: the same match arrays, behind an iterator on one side. -/
theorem matchAll_agrees (hdoc : rx.Documented) (hp : compilePattern rx o.source o.flags = .ok p)
    (hfuel : (subject s).length + 2 ≤ fuel) (hsource : o.source ≠ []) (hg : o.has 'g' = true)
    (hzero : o.lastIndex = 0) (hwritable : o.writable = true)
    (hfound : ∀ m, Found (o.attempt rx p (subject s)) m → m.Inner (subject s)) :
    ∃ ms, stringMatchAll rx fuel o s = some (o, .ok (.arrayIterator ms)) ∧
      symbolMatchAll rx (.ok true) fuel o s =
        some (o, .ok (if ms.isEmpty then .null else .matchArrays ms)) := by
  have htracks := tracks_of_global hg
  have hmatches := collectMatches_eq hdoc.found hp htracks hwritable (allFrom_of_found hfound)
    (Nat.zero_le _) hfuel
  have hdrain := drain_eq (o := .new o.source o.flags) hdoc.found hp htracks rfl (i := 0) (by omega)
    (hfuel : (subject s).length + 2 ≤ fuel + 0)
  rw [with_lastIndex hzero] at hmatches
  refine ⟨matchesFrom (o.attempt rx p (subject s)) fuel 0, ?_, ?_⟩
  · rw [stringMatchAll, if_pos hg, writeLastIndex_writable 0 hwritable, with_lastIndex hzero]
    simp only [hmatches, Answer.mapOk, Option.map_some, Except.map]
  · have hempty : o.source.isEmpty = false := by simpa using hsource
    rw [symbolMatchAll]
    simp only [if_true, hempty, Bool.false_eq_true, if_false, hg, hzero]
    rw [writeLastIndex_writable (o := .new o.source o.flags) 0 rfl]
    simp only [hdrain]
    rfl

/-- **`search`**. -/
theorem search_agrees (hdoc : rx.Documented) (hp : compilePattern rx o.source o.flags = .ok p)
    (hlen : (subject s).length < 2 ^ 30)
    (h : if o.writable then o.tracks = true → o.lastIndex = 0 ∧ o.attempt rx p (subject s) 0 = none
      else o.tracks = true) :
    ∃ a, stringSearch rx o s = some a ∧ symbolSearch rx o s = some a := by
  unfold stringSearch symbolSearch
  cases hwritable : o.writable with
  | false =>
    have htracks : o.tracks = true := by simpa [hwritable] using h
    rw [runExec_readOnly hdoc.found hp htracks hwritable, writeLastIndex_readOnly 0 hwritable]
    exact ⟨_, rfl, rfl⟩
  | true =>
    simp only [hwritable, if_true] at h
    rw [writeLastIndex_writable 0 hwritable]
    by_cases htracks : o.tracks = true
    · obtain ⟨hzero, hnone⟩ := h htracks
      have hrun : runExec rx o (subject s) = _ := runExec_tracks hdoc.found hp htracks hwritable
      rw [hzero, hnone, with_lastIndex hzero] at hrun
      simp only [with_lastIndex hzero, hrun, hzero, writeLastIndex_writable 0 hwritable]
      exact ⟨_, rfl, rfl⟩
    · have htracks : o.tracks = false := by simpa using htracks
      have hrun : runExec rx o (subject s) = _ := runExec_plain hp htracks
      have hrun' : runExec rx { o with lastIndex := 0 } (subject s) = _ := runExec_plain hp htracks
      have hback := writeLastIndex_writable (o := { o with lastIndex := 0 }) o.lastIndex hwritable
      simp only [hrun, hrun', hback]
      cases hm : rx.exec p (subject s) 0 with
      | none => exact ⟨_, rfl, rfl⟩
      | some m =>
        have hstart : asSmi m.start = some m.start := by
          have := hdoc.found p _ 0 m hm
          rw [asSmi, if_pos (by omega)]
        refine ⟨_, rfl, ?_⟩
        simp [Except.map, hstart]

theorem spliceSpans_start {text template : Text} (hlen : (encode text).length < 2 ^ 30)
    {ms : List Match} (hordered : Ordered 0 ms)
    (hms : ∀ m ∈ ms, m.Plain text ∧ PlainTemplate m.groups.length template)
    (hfits : byteLen (spliceUnits text (encode text) template ms [] 0) ≤ maxReplaceLen) :
    spliceSpans text template (ms.map (matchSpan text (encode text))) [] 0 =
      .ok (spliceUnits text (encode text) template ms [] 0) :=
  spliceSpans_eq hlen [] text rfl hordered hms hfits

/-- What `replace` asks of the object, the subject and the template. -/
def Replaceable (rx : Regex P) (p : P) (fuel : Nat) (o : RegExpObject) (s : Units)
    (template : Text) : Prop :=
  (if o.has 'g' then o.lastIndex = 0 ∧ ∀ m, Found (o.attempt rx p (subject s)) m →
      m.Inner (subject s) ∧ m.Plain (decode s) ∧ PlainTemplate m.groups.length template
    else ∀ m, o.attempt rx p (subject s) o.startIndex = some m → (o.tracks = true ∨ o.lastIndex ≠ 0) ∧
      m.Plain (decode s) ∧ PlainTemplate m.groups.length template) ∧
  (o.attempt rx p (subject s) o.startIndex = none → subject s = s) ∧
  ∀ o' u, symbolReplace rx fuel o s template = some (o', .ok (.string u)) →
    byteLen (decode u) ≤ maxReplaceLen

theorem replace_agrees_once {o' : RegExpObject} {r : Option Match} {template : Text}
    (hdoc : rx.Documented) (hg : o.has 'g' = false)
    (hlen : (subject s).length < 2 ^ 30) (hrun : runExec rx o (subject s) = (o', .ok r))
    (hnone : r = none → subject s = s)
    (hsome : ∀ m, r = some m → rx.exec p (subject s) o.startIndex = some m ∧ o'.lastIndex ≠ 0 ∧
      m.Plain (decode s) ∧ PlainTemplate m.groups.length template)
    (hfits : ∀ o' u, symbolReplace rx (fuel + 1) o s template = some (o', .ok (.string u)) →
      byteLen (decode u) ≤ maxReplaceLen) :
    ∃ a, stringReplace rx (fuel + 1) o s template = some a ∧
      symbolReplace rx (fuel + 1) o s template = some a := by
  cases r with
  | none =>
    refine ⟨(o', .ok (.string s)), ?_, ?_⟩
    · simp [stringReplace, collectMatchSpans, hrun]
    · have hs : encode (decode s) = s := hnone rfl
      have hrun' : runExec rx o s = (o', .ok none) := by rwa [hnone rfl] at hrun
      simp [symbolReplace, hg, replaceLoop, hrun', Answer.mapOk, subject, hs, Except.map]
  | some m =>
    obtain ⟨hm, hindex, hplain, htemplate⟩ := hsome m rfl
    obtain ⟨hstart, hstop, hend⟩ := hdoc.found p _ _ m hm
    have hwhole : min (m.start + unitLen (m.whole (subject s))) (subject s).length = m.stop := by
      obtain ⟨a, w, b, heq, hw, ha, hb⟩ := hplain
      have : m.whole (subject s) = w := by
        rw [subject, heq, whole_of_span hw ha hb]
      rw [this]
      omega
    have hsymbol : symbolReplace rx (fuel + 1) o s template =
        some (o', .ok (.string (encode (spliceUnits (decode s) (subject s) template [m] [] 0)))) := by
      have hmin : min m.start (subject s).length = m.start := by omega
      simp [symbolReplace, hg, replaceLoop, hrun, Answer.mapOk, Except.map, hmin, hwhole, spliceUnits]
    have hcap := hfits _ _ hsymbol
    rw [decode_encode] at hcap
    have hms : ∀ m' ∈ [m], m'.Plain (decode s) ∧ PlainTemplate m'.groups.length template := by
      simpa using ⟨hplain, htemplate⟩
    have hordered : Ordered 0 [m] := ⟨Nat.zero_le _, trivial⟩
    have hspans := spliceSpans_start hlen hordered hms hcap
    rw [List.map_singleton] at hspans
    refine ⟨_, ?_, hsymbol⟩
    simp only [stringReplace, collectMatchSpans, hg, hrun, Nat.le_zero, hindex, if_false,
      Bool.not_false, Bool.or_true, if_true, Option.bind_some]
    rw [subject, hspans]
    rfl

/-- **`replace`**. -/
theorem replace_agrees {template : Text} (hdoc : rx.Documented)
    (hp : compilePattern rx o.source o.flags = .ok p) (hlen : (subject s).length < 2 ^ 30)
    (hfuel : (subject s).length + 2 ≤ fuel) (h : Replaceable rx p fuel o s template) :
    ∃ a, stringReplace rx fuel o s template = some a ∧ symbolReplace rx fuel o s template = some a := by
  obtain ⟨hmatches, hnone, hfits⟩ := h
  obtain ⟨fuel, rfl⟩ : ∃ n, fuel = n + 1 := ⟨fuel - 1, by omega⟩
  by_cases hreadOnly : o.tracks = true ∧ o.writable = false
  · -- the first `lastIndex` write of either side throws
    obtain ⟨htracks, hwritable⟩ := hreadOnly
    have hrun : runExec rx o (subject s) = _ := runExec_readOnly hdoc.found hp htracks hwritable
    refine ⟨(o, .error (.exec .readOnlyLastIndex)), ?_, ?_⟩
    · simp [stringReplace, collectMatchSpans, hrun]
    · cases hg : o.has 'g' with
      | true => simp [symbolReplace, hg, writeLastIndex_readOnly 0 hwritable]
      | false => simp [symbolReplace, hg, replaceLoop, hrun, Answer.mapOk, Except.map]
  · cases hg : o.has 'g' with
    | true =>
      simp only [hg, if_true] at hmatches
      obtain ⟨hzero, hfound⟩ := hmatches
      have htracks := tracks_of_global hg
      have hwritable : o.writable = true := by simpa [htracks] using hreadOnly
      have hinner := allFrom_of_found fun m hm => (hfound m hm).1
      have hplain := allFrom_of_found fun m hm => (hfound m hm).2.1
      have htemplate := allFrom_of_found fun m hm => (hfound m hm).2.2
      have hspans := collectMatchSpans_eq hdoc.found hp htracks hwritable
        (rfl : subject s = encode (decode s)) hinner (Nat.zero_le _) hfuel
      have hloop : replaceLoop rx (decode s) (encode (decode s)) template true (fuel + 1)
          { o with lastIndex := 0 } [] 0 = _ :=
        replaceLoop_eq hdoc.found hp htracks hwritable (Nat.le_refl 0) (by omega) hfuel
      rw [with_lastIndex hzero] at hspans hloop
      have hsymbol : symbolReplace rx (fuel + 1) o s template = some (o, .ok (.string (encode
          (spliceUnits (decode s) (subject s) template
            (matchesFrom (o.attempt rx p (subject s)) (fuel + 1) 0) [] 0)))) := by
        simp only [symbolReplace, hg, if_true, writeLastIndex_writable 0 hwritable,
          with_lastIndex hzero]
        rw [subject, hloop]
        rfl
      have hcap := hfits _ _ hsymbol
      rw [decode_encode] at hcap
      have hstart : o.startIndex = 0 := (startIndex_of_tracks htracks).trans hzero
      refine ⟨_, ?_, hsymbol⟩
      rw [stringReplace, hg, hspans, Option.bind_some]
      cases hms : matchesFrom (o.attempt rx p (subject s)) (fuel + 1) 0 with
      | nil =>
        have hno : o.attempt rx p (subject s) 0 = none := by
          rw [matchesFrom] at hms
          cases hm : o.attempt rx p (subject s) 0 with
          | none => rfl
          | some m => simp [hm] at hms
        have hs : encode (decode s) = s := hnone (hstart ▸ hno)
        simp [spliceUnits, subject, hs]
      | cons m ms =>
        have hsplice := spliceSpans_start hlen (ordered_matchesFrom hdoc.found (fuel + 1) 0)
          (fun m hm => ⟨hplain (fuel + 1) m hm, htemplate (fuel + 1) m hm⟩) hcap
        rw [hms, List.map_cons] at hsplice
        simp only [List.map_cons]
        rw [subject, hsplice]
        rfl
    | false =>
      simp only [hg, Bool.false_eq_true, if_false] at hmatches
      by_cases htracks : o.tracks = true
      · have hwritable : o.writable = true := by simpa [htracks] using hreadOnly
        have hrun : runExec rx o (subject s) = _ := runExec_tracks hdoc.found hp htracks hwritable
        rw [startIndex_of_tracks htracks] at hmatches hnone
        cases hm : o.attempt rx p (subject s) o.lastIndex with
        | none =>
          rw [hm] at hrun
          exact replace_agrees_once (p := p) hdoc hg hlen hrun (fun _ => hnone hm) (by simp) hfits
        | some m =>
          rw [hm] at hrun
          have hlt := (lt_next hdoc.found hm).1
          refine replace_agrees_once (p := p) hdoc hg hlen hrun (by simp) ?_ hfits
          rintro _ ⟨⟩
          refine ⟨?_, by simp only; omega, (hmatches m hm).2⟩
          rw [startIndex_of_tracks htracks]
          exact (Option.filter_eq_some_iff.mp hm).1
      · have htracks : o.tracks = false := by simpa using htracks
        rw [attempt_of_not_tracks htracks] at hmatches hnone
        have hrun : runExec rx o (subject s) = _ := runExec_plain hp htracks
        refine replace_agrees_once (p := p) hdoc hg hlen hrun hnone (fun m hm => ?_) hfits
        obtain ⟨hindex, hrest⟩ := hmatches m hm
        rw [(start_of_not_tracks htracks).1]
        exact ⟨hm, by simpa [htracks] using hindex, hrest⟩

end Methods

/-! ## §6 `split` -/

theorem parse_append (f : Flags) (flags : Text) (c : Char) :
    Flags.parse f (flags ++ [c]) = (Flags.parse f flags).bind fun f => Flags.parse f [c] := by
  induction flags generalizing f with
  | nil => rfl
  | cons d flags ih =>
    simp only [List.cons_append, Flags.parse]
    cases f.letter d with
    | none => rfl
    | some f' => exact ih f'

theorem compilePattern_extra {source flags : Text} (hdoc : rx.Documented)
    (hp : compilePattern rx source flags = .ok p) {c : Char} (hc : c = 'g' ∨ c = 'y') :
    ∃ p', compilePattern rx source (flags ++ [c]) = .ok p' ∧ rx.exec p' = rx.exec p := by
  unfold compilePattern at hp ⊢
  rw [parse_append]
  cases hf : Flags.parse .none flags with
  | error e => simp [hf] at hp
  | ok f =>
    have hcompile : rx.compile source f = .ok p := by
      simp only [hf] at hp
      cases h : rx.compile source f with
      | error e => simp [h, Except.mapError] at hp
      | ok p' => simpa [h, Except.mapError] using hp
    rcases hc with rfl | rfl
    · obtain ⟨p', hp', hexec⟩ := hdoc.iteration source f true f.sticky p hcompile
      exact ⟨p', by simp [Except.bind, Flags.parse, Flags.letter, hp', Except.mapError], hexec⟩
    · obtain ⟨p', hp', hexec⟩ := hdoc.iteration source f f.global true p hcompile
      exact ⟨p', by simp [Except.bind, Flags.parse, Flags.letter, hp', Except.mapError], hexec⟩

section Split

variable {rx : Regex P} {p : P} {o : RegExpObject} {s input : Units} {fuel : Nat}

/-- A match that `split` treats alike on both sides: it is not empty, and no group
takes part in it. -/
def Match.Separator (text : Text) (m : Match) : Prop :=
  m.start < m.stop ∧ m.Plain text ∧ ∀ g ∈ m.groups, g = none

theorem splitMatch_eq (hdoc : rx.Documented) (hp : compilePattern rx o.source o.flags = .ok p)
    (hy : o.has 'y' = false) (hwritable : o.writable = true) (v q : Nat) :
    splitMatch rx { o with lastIndex := v } input q = match rx.exec p input q with
      | none => ({ o with lastIndex := v }, .ok none)
      | some m => ({ o with lastIndex := max m.stop (q + 1) }, .ok (some m)) := by
  obtain ⟨p', hp', hexec⟩ := compilePattern_extra hdoc hp (c := 'y') (.inr rfl)
  have hy' : RegExpObject.has { o with lastIndex := v } 'y' = false := hy
  unfold splitMatch
  simp only [hy', Bool.false_eq_true, if_false, hp', hexec]
  cases rx.exec p input q with
  | none => rfl
  | some m =>
    simp only [writeLastIndex_writable (o := { o with lastIndex := v }) (max m.stop (q + 1)) hwritable]

theorem lt_advance (flags : Text) {q : Nat} (h : q < input.length) : q < advance flags input q := by
  unfold advance
  simp only
  split <;> omega

theorem splitLoop_exhausted {limit v c q : Nat} {items : List Units} (hdoc : rx.Documented)
    (hp : compilePattern rx o.source o.flags = .ok p) (hy : o.has 'y' = false)
    (hwritable : o.writable = true) (hnone : rx.exec p input q = none)
    (hfuel : input.length + 1 ≤ fuel + q) (hpos : 0 < fuel) :
    splitLoop rx input limit fuel { o with lastIndex := v } items c q =
      some ({ o with lastIndex := v }, .ok (items ++ [input.drop c])) := by
  induction fuel generalizing q with
  | zero => omega
  | succ fuel ih =>
    rw [splitLoop]
    by_cases hq : q < input.length ∧ items.length < limit
    · rw [if_pos hq, splitMatch_eq hdoc hp hy hwritable, hnone]
      have hlt := lt_advance o.flags hq.1
      exact ih (q := advance o.flags input q) (hdoc.exhausted _ _ _ _ _ hp hnone) (by omega) (by omega)
    · rw [if_neg hq]

def piecesUnits (input : Units) : List Match → Nat → List Units
  | [], c => [input.drop c]
  | m :: ms, c => slice input c m.start :: piecesUnits input ms m.stop

@[simp] theorem length_piecesUnits (input : Units) (ms : List Match) (c : Nat) :
    (piecesUnits input ms c).length = ms.length + 1 := by
  induction ms generalizing c with
  | nil => rfl
  | cons m ms ih => simp [piecesUnits, ih]

theorem pushCaptures_none (limit : Nat) (items : List Units) {captures : List (Option Text)}
    (h : ∀ c ∈ captures, c = none) : pushCaptures limit items captures = items := by
  induction captures generalizing items with
  | nil => rfl
  | cons c captures ih =>
    obtain rfl := h c List.mem_cons_self
    exact ih items fun c hc => h c (List.mem_cons_of_mem _ hc)

theorem splitLoop_eq {text : Text} {limit v q : Nat} {items : List Units} (hdoc : rx.Documented)
    (hp : compilePattern rx o.source o.flags = .ok p) (hy : o.has 'y' = false)
    (hwritable : o.writable = true)
    (hsep : AllFrom (o.attempt rx p input) q (Match.Separator text))
    (hitems : items.length < limit) (hq : q ≤ input.length)
    (hfuel : input.length + 2 ≤ fuel + q) :
    ∃ v', splitLoop rx input limit fuel { o with lastIndex := v } items q q =
      some ({ o with lastIndex := v' }, .ok ((items ++
        piecesUnits input (matchesFrom (o.attempt rx p input) fuel q) q).take limit)) := by
  induction fuel generalizing q v items with
  | zero => omega
  | succ fuel ih =>
    cases hm : o.attempt rx p input q with
    | none =>
      rw [attempt_of_not_sticky hy] at hm
      refine ⟨v, ?_⟩
      rw [splitLoop_exhausted hdoc hp hy hwritable hm (by omega) (by omega), matchesFrom,
        attempt_of_not_sticky hy, hm, piecesUnits, List.take_of_length_le]
      simp only [List.length_append, List.length_singleton]
      omega
    | some m =>
      obtain ⟨hlt, -, hgroups⟩ := hsep.head hm
      obtain ⟨hstart, -, hend⟩ := attempt_bounds hdoc.found hm
      have hnext : m.next = m.stop := by rw [Match.next, if_neg (by omega)]
      have hexec : rx.exec p input q = some m := by rw [← attempt_of_not_sticky hy, hm]
      have hcaptures : ∀ c ∈ splitCaptures input m, c = none := by
        intro c hc
        obtain ⟨g, hg, rfl⟩ := List.mem_map.mp hc
        rw [hgroups g hg]
        rfl
      have hstop : min (m.start + (m.stop - m.start)) input.length = m.stop := by omega
      rw [splitLoop, if_pos ⟨by omega, hitems⟩, splitMatch_eq hdoc hp hy hwritable, hexec]
      simp only [Nat.not_lt.mpr hstart, if_false, hstop, pushCaptures_none _ _ hcaptures, ite_self]
      by_cases hfull : (items ++ [slice input q m.start]).length = limit
      · refine ⟨max m.stop (q + 1), ?_⟩
        have hsplit : items ++ piecesUnits input (m :: matchesFrom (o.attempt rx p input) fuel m.next) q =
            items ++ [slice input q m.start] ++
              piecesUnits input (matchesFrom (o.attempt rx p input) fuel m.next) m.stop := by
          rw [piecesUnits, List.append_assoc, List.singleton_append]
        rw [if_pos hfull, matchesFrom, hm, hsplit, ← hfull, List.take_left]
      · have hroom : (items ++ [slice input q m.start]).length < limit := by
          simp only [List.length_append, List.length_singleton] at hfull ⊢
          omega
        have hrest := hsep.tail hm
        rw [hnext] at hrest
        obtain ⟨v', hloop⟩ := ih (v := max m.stop (q + 1)) hrest hroom hend (by omega)
        refine ⟨v', ?_⟩
        rw [if_neg hfull, if_neg hfull, if_neg (by omega : ¬ m.stop - m.start = 0), hloop]
        simp only [matchesFrom, hm, hnext, piecesUnits, List.append_assoc, List.singleton_append]

theorem piecesBetween_eq {text : Text} (hlen : (encode text).length < 2 ^ 30) {ms : List Match}
    (a₀ r : Text) (htext : text = a₀ ++ r) (hordered : Ordered (unitLen a₀) ms)
    (hms : ∀ m ∈ ms, m.Plain text) :
    (piecesBetween text (ms.map (matchSpan text (encode text))) (byteLen a₀)).map encode =
      piecesUnits (encode text) ms (unitLen a₀) := by
  induction ms generalizing a₀ r with
  | nil =>
    have hdrop : (encode a₀ ++ encode r).drop (unitLen a₀) = encode r := List.drop_left
    subst htext
    rw [List.map_nil, piecesBetween, piecesUnits, dropBytes_cut, encode_append, hdrop,
      List.map_singleton]
  | cons m ms ih =>
    obtain ⟨hle, hordered⟩ := hordered
    obtain ⟨g, w, b, heq, -, hstop, hgap, hspan, hbetween, -⟩ :=
      (hms m List.mem_cons_self).cut hlen htext hle
    rw [hstop] at hordered
    rw [List.map_cons, hspan, piecesBetween, piecesUnits, List.map_cons, hbetween, hgap, hstop,
      ih _ _ heq hordered fun m' hm' => hms m' (List.mem_cons_of_mem _ hm')]

/-- What `split` asks of the object, the subject and the limit. -/
structure Splittable (rx : Regex P) (p : P) (o : RegExpObject) (s : Units) (limit : Limit) : Prop where
  source : o.source ≠ [] ∧ o.source ≠ "(?:)".toList
  sticky : o.has 'y' = false
  writable : o.writable = true
  index : o.has 'g' = true → o.lastIndex = 0
  limit : ∀ n, limit ≠ .other n
  separators : ∀ m, Found (o.attempt rx p (subject s)) m → m.Separator (decode s)

theorem take_limit {α : Type} {limit : Limit} (h : ∀ n, limit ≠ .other n) {pieces : List α}
    (hlen : pieces.length < 2 ^ 32) : pieces.take limit.ofSmi = pieces.take limit.toCount := by
  cases limit with
  | smi n => rfl
  | absent =>
    rw [List.take_of_length_le, List.take_of_length_le]
    · simp only [Limit.toCount]
      omega
    · simp only [Limit.ofSmi]
      omega
  | other n => exact absurd rfl (h n)

theorem stringSplit_eq {limit : Limit} (hdoc : rx.Documented)
    (hp : compilePattern rx o.source o.flags = .ok p) (hlen : (subject s).length < 2 ^ 30)
    (hfuel : (subject s).length + 2 ≤ fuel) (h : Splittable rx p o s limit) :
    stringSplit rx fuel o s limit = some (o, .ok (.strings ((piecesUnits (subject s)
      (matchesFrom (o.attempt rx p (subject s)) fuel 0) 0).take limit.ofSmi))) := by
  have hsep := allFrom_of_found h.separators
  have hinner : AllFrom (o.attempt rx p (subject s)) 0 (Match.Inner (subject s)) := by
    intro fuel m hm hempty
    have := (hsep fuel m hm).1
    omega
  have hpieces := piecesBetween_eq hlen [] (decode s) rfl
    (ordered_matchesFrom (p := p) (o := o) hdoc.found fuel 0) fun m hm => (hsep fuel m hm).2.1
  change (piecesBetween (decode s) ((matchesFrom (o.attempt rx p (subject s)) fuel 0).map
    (matchSpan (decode s) (subject s))) 0).map encode = piecesUnits (subject s) _ 0 at hpieces
  rw [stringSplit]
  cases hg : o.has 'g' with
  | true =>
    have hspans := collectMatchSpans_eq hdoc.found hp (tracks_of_global hg) h.writable
      (rfl : subject s = encode (decode s)) hinner (Nat.zero_le _) hfuel
    rw [with_lastIndex (h.index hg)] at hspans
    simp only [if_true, hspans, Answer.mapOk, Option.map_some, Except.map, List.map_take]
    rw [hpieces]
  | false =>
    obtain ⟨p', hp', hexec⟩ := compilePattern_extra hdoc hp (c := 'g') (.inl rfl)
    have hattempt : (RegExpObject.new o.source (o.flags ++ ['g'])).attempt rx p' (subject s) =
        o.attempt rx p (subject s) := by
      funext i
      have hy : (RegExpObject.new o.source (o.flags ++ ['g'])).has 'y' = false := by
        have := h.sticky
        simp only [RegExpObject.has, RegExpObject.new, decide_eq_false_iff_not] at this ⊢
        simpa using this
      rw [attempt_of_not_sticky hy, attempt_of_not_sticky h.sticky, hexec]
    have hspans := collectMatchSpans_eq (o := .new o.source (o.flags ++ ['g'])) hdoc.found hp'
      (by simp [RegExpObject.tracks, RegExpObject.has, RegExpObject.new]) rfl
      (rfl : subject s = encode (decode s)) (hattempt ▸ hinner) (Nat.zero_le _) hfuel
    rw [hattempt] at hspans
    have hspans' : collectMatchSpans rx (decode s) (subject s) true fuel
        (.new o.source (o.flags ++ ['g'])) 0 = _ := hspans
    simp only [Bool.false_eq_true, if_false, hspans', Answer.mapOk, Answer.keeping,
      Option.map_some, Except.map, List.map_take]
    rw [hpieces]

/-- **`split`**: the same pieces; without a match the same object too. -/
theorem split_agrees {limit : Limit} {isDefault : Bool} (hdoc : rx.Documented)
    (hp : compilePattern rx o.source o.flags = .ok p) (hlen : (subject s).length < 2 ^ 30)
    (hfuel : (subject s).length + 2 ≤ fuel) (h : Splittable rx p o s limit) :
    ∃ r v, stringSplit rx fuel o s limit = some (o, r) ∧
      symbolSplit rx (.ok isDefault) fuel o s limit = some ({ o with lastIndex := v }, r) ∧
      (o.attempt rx p (subject s) 0 = none → v = o.lastIndex) := by
  have hcount : (matchesFrom (o.attempt rx p (subject s)) fuel 0).length ≤ (subject s).length + 1 :=
    length_matchesFrom hdoc.found fuel
  have htake : (piecesUnits (subject s) (matchesFrom (o.attempt rx p (subject s)) fuel 0) 0).take
      limit.ofSmi = _ := take_limit h.limit (by rw [length_piecesUnits]; omega)
  have hstring := stringSplit_eq hdoc hp hlen hfuel h
  rw [htake] at hstring
  by_cases hzero : limit.toCount = 0
  · refine ⟨_, o.lastIndex, hstring, ?_, fun _ => rfl⟩
    simp [symbolSplit, hzero]
  · have hsource : ¬ (o.source = "(?:)".toList ∨ o.source = []) := by
      simpa [not_or, and_comm] using h.source
    cases hm : o.attempt rx p (subject s) 0 with
    | none =>
      refine ⟨_, o.lastIndex, hstring, ?_, fun _ => rfl⟩
      have hnone : rx.exec p (subject s) 0 = none := by
        rw [← attempt_of_not_sticky h.sticky, hm]
      have hloop : splitLoop rx (subject s) limit.toCount fuel { o with lastIndex := o.lastIndex } []
          0 0 = _ :=
        splitLoop_exhausted hdoc hp h.sticky h.writable hnone (by omega) (by omega)
      obtain ⟨fuel, rfl⟩ : ∃ n, fuel = n + 1 := ⟨fuel - 1, by omega⟩
      have hone : ([List.drop 0 (subject s)]).take limit.toCount = [List.drop 0 (subject s)] :=
        List.take_of_length_le (by simp; omega)
      rw [symbolSplit]
      simp only [hzero, if_false, hsource]
      rw [show splitLoop rx (subject s) limit.toCount (fuel + 1) o [] 0 0 = _ from hloop, matchesFrom,
        hm, piecesUnits, hone]
      rfl
    | some m =>
      obtain ⟨v, hloop⟩ := @splitLoop_eq _ _ _ _ (subject s) fuel _ _ o.lastIndex 0 [] hdoc hp
        h.sticky h.writable (allFrom_of_found h.separators) (Nat.pos_of_ne_zero hzero)
        (Nat.zero_le _) hfuel
      refine ⟨_, v, hstring, ?_, fun hnone => by cases hnone⟩
      rw [symbolSplit]
      simp only [hzero, if_false, hsource]
      rw [show splitLoop rx (subject s) limit.toCount fuel o [] 0 0 = _ from hloop]
      rfl

end Split

/-! ## §7 Both families -/

inductive Method where
  | onMatch
  | onMatchAll
  | onReplace (template : Text)
  | onSearch
  | onSplit (limit : Limit)

/-- `s.match(o)` and its siblings. -/
def Method.onString (rx : Regex P) (fuel : Nat) (o : RegExpObject) (s : Units) :
    Method → Answer Value
  | .onMatch => stringMatch rx fuel o s
  | .onMatchAll => stringMatchAll rx fuel o s
  | .onReplace template => stringReplace rx fuel o s template
  | .onSearch => stringSearch rx o s
  | .onSplit limit => stringSplit rx fuel o s limit

/-- `o[Symbol.match](s)` and its siblings. -/
def Method.onRegExp (rx : Regex P) (species : Except MethodThrow Bool) (fuel : Nat)
    (o : RegExpObject) (s : Units) : Method → Answer Value
  | .onMatch => symbolMatch rx fuel o s
  | .onMatchAll => symbolMatchAll rx species fuel o s
  | .onReplace template => symbolReplace rx fuel o s template
  | .onSearch => symbolSearch rx o s
  | .onSplit limit => symbolSplit rx species fuel o s limit

def Method.Applies (rx : Regex P) (p : P) (species : Except MethodThrow Bool) (fuel : Nat)
    (o : RegExpObject) (s : Units) : Method → Prop
  | .onMatch => o.has 'g' = true → o.lastIndex = 0 ∧ ∀ m, Found (o.attempt rx p (subject s)) m →
      m.Plain (decode s) ∧ m.Inner (subject s)
  | .onMatchAll => o.source ≠ [] ∧ o.has 'g' = true ∧ o.lastIndex = 0 ∧ o.writable = true ∧
      species = .ok true ∧ ∀ m, Found (o.attempt rx p (subject s)) m → m.Inner (subject s)
  | .onReplace template => Replaceable rx p fuel o s template
  | .onSearch =>
    if o.writable then o.tracks = true → o.lastIndex = 0 ∧ o.attempt rx p (subject s) 0 = none
    else o.tracks = true
  | .onSplit limit => (∃ isDefault, species = .ok isDefault) ∧ Splittable rx p o s limit

/-- The answers agree: `matchAll` iterates over the arrays that the other side
returns, and `split` leaves the object alone on one side, so the objects agree
where nothing is found. -/
def Method.Agree (rx : Regex P) (p : P) (o : RegExpObject) (s : Units)
    (a b : RegExpObject × Except MethodThrow Value) : Method → Prop
  | .onMatchAll => a.1 = b.1 ∧ ∃ ms, a.2 = .ok (.arrayIterator ms) ∧
      b.2 = .ok (if ms.isEmpty then .null else .matchArrays ms)
  | .onSplit _ => a.2 = b.2 ∧ a.1 = o ∧ ((o.attempt rx p (subject s) 0 = none) → b.1 = o)
  | .onMatch | .onReplace _ | .onSearch => a = b

def letterRegex : Regex Char where
  compile
    | [c], _ => .ok c
    | _, _ => .error []
  exec c input i :=
    ((input.drop i).findIdx? (· == BitVec.ofNat 16 c.toNat)).map fun k => ⟨i + k, i + k + 1, []⟩

theorem letterRegex_documented : letterRegex.Documented where
  found c input i m h := by
    obtain ⟨k, hk, rfl⟩ := Option.map_eq_some_iff.mp h
    have hlt := (List.findIdx?_eq_some_iff_getElem.mp hk).1
    simp only [List.length_drop] at hlt
    simp only
    omega
  iteration source f global sticky c h := by
    refine ⟨c, ?_, rfl⟩
    match source, h with
    | [_], h => exact h
  exhausted source flags c input i _ h := by
    have hnone := Option.map_eq_none_iff.mp h
    rw [List.findIdx?_eq_none_iff] at hnone
    refine Option.map_eq_none_iff.mpr (List.findIdx?_eq_none_iff.mpr fun u hu => hnone u ?_)
    have hle : i ≤ advance flags input i ∨ input.length ≤ advance flags input i := by
      unfold advance
      simp only
      split <;> omega
    rcases hle with hle | hle
    · exact List.drop_subset_drop_left input hle hu
    · rw [List.drop_eq_nil_of_le hle] at hu
      cases hu

/-- `/a/g`, at the start. -/
def letterA : RegExpObject := .new ['a'] ['g']

end V12.Engine
