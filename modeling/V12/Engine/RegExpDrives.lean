/-
V12.Engine.RegExpDrives — what `exec` answers, and what the loops over it report.

The loops go on at `Match.next`, from the `lastIndex` they find or write. ECMAScript
resets `lastIndex` first, and goes on behind an empty match with
`AdvanceStringIndex`. Both ways through the matches are `Reports`.
-/
import V12.Engine.StringRegExpTheorems

namespace V12.Engine

open Lib.Utf16

variable {P : Type}

/-! ## §1 Ways through the matches -/

/-- The matches that searches from `i` on come to, up to the first that fails. -/
def Reports (attempt : Nat → Option Match) (next : Match → Nat) : Nat → List Match → Prop
  | i, [] => attempt i = none
  | i, m :: ms => attempt i = some m ∧ Reports attempt next (next m) ms

def Advancing (ms : List Match) : Prop :=
  ms.Pairwise fun m m' => m.start < m'.start ∧ m.stop ≤ m'.start

section Reports

variable {attempt : Nat → Option Match} {next next' : Match → Nat} {i j fuel : Nat}
  {ms : List Match}

/-- **Two ways are one** if the searches at the start and behind each match are. -/
theorem Reports.iff_next (h : Reports attempt next i ms) :
    Reports attempt next' j ms ↔
      attempt i = attempt j ∧ ∀ m ∈ ms, attempt (next m) = attempt (next' m) := by
  induction ms generalizing i j with
  | nil =>
    have hi : attempt i = none := h
    simp only [Reports, hi, List.not_mem_nil, false_implies, implies_true, and_true]
    exact eq_comm
  | cons m ms ih =>
    obtain ⟨hi, hrest⟩ := h
    simp only [Reports, hi, ih hrest (j := next' m), List.mem_cons, forall_eq_or_imp]
    rw [eq_comm (a := some m)]

theorem Reports.of_matchesFrom (h : Reports attempt Match.next i ms) :
    ∀ m ∈ matchesFrom attempt fuel i, m ∈ ms := by
  induction ms generalizing i fuel with
  | nil =>
    have hi : attempt i = none := h
    cases fuel with
    | zero => simp [matchesFrom]
    | succ fuel => simp [matchesFrom, hi]
  | cons m ms ih =>
    obtain ⟨hi, hrest⟩ := h
    intro m' hm'
    cases fuel with
    | zero => cases hm'
    | succ fuel =>
      rw [matchesFrom, hi] at hm'
      rcases List.mem_cons.mp hm' with rfl | hm'
      · exact List.mem_cons_self
      · exact List.mem_cons_of_mem _ (ih hrest m' hm')

theorem allFrom_iff {C : Match → Prop}
    (h : Reports attempt Match.next i (matchesFrom attempt fuel i)) :
    AllFrom attempt i C ↔ ∀ m ∈ matchesFrom attempt fuel i, C m :=
  ⟨fun hall => hall fuel, fun hall _ m hm => hall m (h.of_matchesFrom m hm)⟩

end Reports

section Matcher

variable {rx : Regex P} {p : P} {o : RegExpObject} {input : Units} {i fuel : Nat} {ms : List Match}

theorem reports_matchesFrom (hfound : rx.Bounded) (hpos : 0 < fuel)
    (hfuel : input.length + 2 ≤ fuel + i) :
    Reports (o.attempt rx p input) Match.next i (matchesFrom (o.attempt rx p input) fuel i) := by
  induction fuel generalizing i with
  | zero => omega
  | succ fuel ih =>
    rw [matchesFrom]
    cases hm : o.attempt rx p input i with
    | none => exact hm
    | some m =>
      obtain ⟨hlt, hle⟩ := lt_next hfound hm
      exact ⟨hm, ih (by omega) (by omega)⟩

theorem Reports.le_start (hfound : rx.Bounded)
    (h : Reports (o.attempt rx p input) Match.next i ms) : ∀ m ∈ ms, i ≤ m.start := by
  induction ms generalizing i with
  | nil => simp
  | cons m ms ih =>
    obtain ⟨hm, hrest⟩ := h
    have hlt := (lt_next hfound hm).1
    refine List.forall_mem_cons.mpr ⟨(attempt_bounds hfound hm).1, fun m' hm' => ?_⟩
    have := ih hrest m' hm'
    omega

theorem Reports.advancing (hfound : rx.Bounded)
    (h : Reports (o.attempt rx p input) Match.next i ms) : Advancing ms := by
  induction ms generalizing i with
  | nil => exact List.Pairwise.nil
  | cons m ms ih =>
    obtain ⟨hm, hrest⟩ := h
    refine List.Pairwise.cons (fun m' hm' => ?_) (ih hrest)
    have hle := hrest.le_start hfound m' hm'
    have hstart := (attempt_bounds hfound hm).2.1
    have hstop := stop_le_next m
    have hnext : m.start < m.next := by
      unfold Match.next
      split <;> omega
    omega

end Matcher

/-! ## §2 What an `exec` answers -/

def PlainSpan (s : Units) (start stop : Nat) : Prop :=
  ∀ u ∈ slice s start stop, ¬ (IsHigh u ∨ IsLow u)

theorem map_slice {α β : Type} (f : α → β) (xs : List α) (a b : Nat) :
    (slice xs a b).map f = slice (xs.map f) a b := by
  rw [slice, slice, List.map_take, List.map_drop]

theorem encode_elementText {s : Units} {start stop : Nat} :
    encode (elementText (subject s) start stop) = slice s start stop ↔ PlainSpan s start stop := by
  have hmark : (slice (subject s) start stop).map mark = (slice s start stop).map mark := by
    rw [map_slice, map_slice]
    exact congrArg (slice · start stop) (map_mark_lossy s)
  rw [elementText, encode_map_unitChar, hmark, ← encode_map_unitChar]
  exact encode_map_unitChar_eq_self

namespace Match

def Shows (s : Units) (m : Match) : Prop :=
  encode (m.whole (subject s)) = slice s m.start m.stop ∧
    (m.captures (subject s)).map (Option.map encode) =
      m.groups.map (Option.map fun (start, stop) => slice s start stop)

def NoSurrogates (s : Units) (m : Match) : Prop :=
  PlainSpan s m.start m.stop ∧ ∀ g ∈ m.groups, ∀ span ∈ g, PlainSpan s span.1 span.2

theorem shows_iff {s : Units} {m : Match} : m.Shows s ↔ m.NoSurrogates s := by
  have hgroup (g : Option (Nat × Nat)) :
      (g.map fun (start, stop) => elementText (subject s) start stop).map encode =
        (g.map fun (start, stop) => slice s start stop) ↔
      ∀ span ∈ g, PlainSpan s span.1 span.2 := by
    cases g with
    | none => simp
    | some span => simpa using encode_elementText
  rw [Shows, NoSurrogates, captures, List.map_map, List.map_inj_left]
  exact and_congr encode_elementText (forall₂_congr fun g _ => hgroup g)

end Match

/-- What is asked of an `exec`: the leftmost match or `null`, with its units, and
`lastIndex` untouched where it does not count. -/
def ExecCorrect (rx : Regex P) (p : P) (o : RegExpObject) (s : Units) : Prop :=
  ∃ o' r, runExec rx o (subject s) = (o', .ok r) ∧
    r = o.attempt rx p (subject s) o.startIndex ∧ (∀ m ∈ r, m.Shows s) ∧
    (o.tracks = false → o'.lastIndex = o.lastIndex)

/-- A `lastIndex` that counts can be written, and the match found has no surrogate. -/
def ExecFits (rx : Regex P) (p : P) (o : RegExpObject) (s : Units) : Prop :=
  (o.tracks = true → o.writable = true) ∧
    ∀ m ∈ o.attempt rx p (subject s) o.startIndex, m.NoSurrogates s

theorem execCorrect_iff {rx : Regex P} {p : P} {o : RegExpObject} (hfound : rx.Bounded)
    (hp : compilePattern rx o.source o.flags = .ok p) (s : Units) :
    ExecCorrect rx p o s ↔ ExecFits rx p o s := by
  have hshows : (∀ m ∈ o.attempt rx p (subject s) o.startIndex, m.Shows s) ↔
      ∀ m ∈ o.attempt rx p (subject s) o.startIndex, m.NoSurrogates s :=
    forall₂_congr fun _ _ => Match.shows_iff
  unfold ExecCorrect ExecFits
  rw [← hshows]
  cases htracks : o.tracks with
  | false =>
    rw [runExec_plain hp htracks, ← attempt_of_not_tracks htracks]
    constructor
    · rintro ⟨o', r, hrun, rfl, h, -⟩
      exact ⟨fun h => Bool.noConfusion h, h⟩
    · rintro ⟨-, h⟩
      exact ⟨o, _, rfl, rfl, h, fun _ => rfl⟩
  | true =>
    cases hwritable : o.writable with
    | false =>
      rw [runExec_readOnly hfound hp htracks hwritable]
      refine iff_of_false ?_ fun h => Bool.noConfusion (h.1 rfl)
      rintro ⟨o', r, hrun, -⟩
      cases congrArg Prod.snd hrun
    | true =>
      rw [startIndex_of_tracks htracks, runExec_tracks hfound hp htracks hwritable]
      constructor
      · rintro ⟨o', r, hrun, rfl, h, -⟩
        exact ⟨fun _ => rfl, h⟩
      · rintro ⟨-, h⟩
        cases hm : o.attempt rx p (subject s) o.lastIndex with
        | none => exact ⟨_, _, rfl, rfl, fun _ h => (by cases h), fun h => Bool.noConfusion h⟩
        | some m => exact ⟨_, _, rfl, rfl, hm ▸ h, fun h => Bool.noConfusion h⟩

/-! ## §3 The loops -/

/-- The loops that drive `exec` to exhaustion: the shared one of `match`, `replace` and
`split`, the one of `matchAll`, and those of the `Symbol` methods. -/
inductive Drive where
  | spans
  | stringMatchAll
  | symbolMatch
  | symbolMatchAll
  | symbolReplace (template : Text)

/-- What a loop hands on. -/
inductive Reported where
  | spans (spans : List MatchSpan)
  | matches (ms : List Match)
  | text (out : Text)

/-- The successive answers of `exec`, up to the first `null`. -/
inductive ExecRun (rx : Regex P) (input : Units) : RegExpObject → List Match → Prop where
  | done {o o'} : runExec rx o input = (o', .ok none) → ExecRun rx input o []
  | step {o o' m ms} : runExec rx o input = (o', .ok (some m)) → ExecRun rx input o' ms →
      ExecRun rx input o (m :: ms)

/-- `AdvanceStringIndex`. -/
def advanceStringIndex (unicode : Bool) (s : Units) (index : Nat) : Nat :=
  if unicode = true ∧ (∃ u ∈ s[index]?, IsHigh u) ∧ ∃ u ∈ s[index + 1]?, IsLow u then index + 2
  else index + 1

def RegExpObject.advanced (o : RegExpObject) (s : Units) (m : Match) : Nat :=
  if m.stop = m.start then advanceStringIndex (o.has 'u' || o.has 'v') s m.stop else m.stop

def Cuts (text : Text) (m : Match) (span : MatchSpan) : Prop :=
  ∃ a w b, text = a ++ w ++ b ∧ m.start = unitLen a ∧ m.stop = unitLen a + unitLen w ∧
    span.start = byteLen a ∧ span.stop = byteLen a + byteLen w

/-- A match at characters of the text; it has characters of one unit only, or the
text ends with it. -/
def Match.Cut (text : Text) (m : Match) : Prop :=
  ∃ a w b, text = a ++ w ++ b ∧ m.start = unitLen a ∧ m.stop = unitLen a + unitLen w ∧
    m.start < 2 ^ 30 ∧ (Bmp w ∨ b = [])

namespace Drive

def run (rx : Regex P) (fuel : Nat) (o : RegExpObject) (s : Units) : Drive → Answer Reported
  | .spans =>
    (collectMatchSpans rx (decode s) (subject s) true fuel o 0).mapOk .spans
  | .stringMatchAll =>
    match writeLastIndex o 0 with
    | (o, .error e) => some (o, .error e)
    | (o, .ok ()) => (collectMatches rx (subject s) fuel o 0).mapOk .matches
  | .symbolMatch =>
    match writeLastIndex o 0 with
    | (o, .error e) => some (o, .error e)
    | (o, .ok ()) => (drain rx (subject s) true fuel o).mapOk .matches
  | .symbolMatchAll =>
    match writeLastIndex o o.lastIndex with
    | (o, .error e) => some (o, .error e)
    | (o, .ok ()) => (drain rx (subject s) true fuel o).mapOk .matches
  | .symbolReplace template =>
    match writeLastIndex o 0 with
    | (o, .error e) => some (o, .error e)
    | (o, .ok ()) =>
      (replaceLoop rx (decode s) (subject s) template true fuel o [] 0).mapOk .text

def start (o : RegExpObject) : Drive → Nat
  | .spans | .symbolMatchAll => o.lastIndex
  | .stringMatchAll | .symbolMatch | .symbolReplace _ => 0

/-- The index ECMAScript starts from: `matchAll` alone keeps `lastIndex`. -/
def reset (o : RegExpObject) : Drive → Nat
  | .symbolMatchAll => o.lastIndex
  | .spans | .stringMatchAll | .symbolMatch | .symbolReplace _ => 0

def shown (s : Units) (ms : List Match) : Drive → Reported
  | .spans => .spans (ms.map (matchSpan (decode s) (subject s)))
  | .stringMatchAll | .symbolMatch | .symbolMatchAll => .matches ms
  | .symbolReplace template => .text (spliceUnits (decode s) (subject s) template ms [] 0)

/-- What is asked of a loop: it ends, it reports each answer of `exec` once and none
twice, and the matches are those ECMAScript comes to. -/
def Correct (rx : Regex P) (p : P) (o : RegExpObject) (s : Units) (drive : Drive) : Prop :=
  ∀ fuel, (subject s).length + 2 ≤ fuel → ∃ o' ms,
    drive.run rx fuel o s = some (o', .ok (drive.shown s ms)) ∧
    ExecRun rx (subject s) { o with lastIndex := drive.start o } ms ∧
    Reports (o.attempt rx p (subject s)) (o.advanced s) (drive.reset o) ms ∧ Advancing ms ∧
    (drive = .spans → ∀ m ∈ ms, Cuts (decode s) m (matchSpan (decode s) (subject s) m))

/-- `lastIndex` can be written; the searches at the start, and behind each match, find
what they find where ECMAScript makes them; and the spans are cut at characters. -/
def Fits (rx : Regex P) (p : P) (o : RegExpObject) (s : Units) (drive : Drive) : Prop :=
  o.writable = true ∧
  o.attempt rx p (subject s) (drive.start o) = o.attempt rx p (subject s) (drive.reset o) ∧
  AllFrom (o.attempt rx p (subject s)) (drive.start o) (fun m =>
    o.attempt rx p (subject s) m.next = o.attempt rx p (subject s) (o.advanced s m) ∧
    (drive = .spans → m.Cut (decode s)))

end Drive

/-! ## §4 Spans in bytes -/

theorem byteOffset_start {text a r : Text} {m : Match} (htext : text = a ++ r)
    (hstart : m.start = unitLen a) (hlt : m.start < 2 ^ 30) :
    byteOffset text ((asSmi m.start).getD 0) = byteLen a := by
  rw [asSmi, if_pos hlt, Option.getD_some, hstart, htext, byteOffset_cut]

theorem start_lt_of_byteOffset {text a : Text} {m : Match} (hstart : m.start = unitLen a)
    (h : byteOffset text ((asSmi m.start).getD 0) = byteLen a) : m.start < 2 ^ 30 := by
  refine Classical.byContradiction fun hge => ?_
  rw [asSmi, if_neg hge, Option.getD_none, byteOffset_zero, eq_comm, byteLen_eq_zero] at h
  rw [hstart, h] at hge
  exact hge (by decide)

/-- **A span cuts the text where its match does** exactly for the cut matches. -/
theorem cuts_matchSpan_iff {text : Text} {m : Match} :
    Cuts text m (matchSpan text (encode text) m) ↔ m.Cut text := by
  have hwhole {a w b : Text} (htext : text = a ++ w ++ b) (hstart : m.start = unitLen a)
      (hstop : m.stop = unitLen a + unitLen w) :
      m.whole (encode text) = (encode w).map unitChar := by
    rw [Match.whole, elementText, hstart, hstop, htext, slice_cut]
  constructor
  · rintro ⟨a, w, b, htext, hstart, hstop, hfrom, hto⟩
    have hlt := start_lt_of_byteOffset hstart hfrom
    refine ⟨a, w, b, htext, hstart, hstop, hlt, ?_⟩
    by_contra hnot
    obtain ⟨hbmp, hb⟩ := not_or.mp hnot
    -- the six bytes of an astral character reach past the match
    have hlong := (byteLen_unitChars w).2 hbmp
    have hbpos : 0 < byteLen b := Nat.pos_of_ne_zero (mt byteLen_eq_zero.mp hb)
    have hlen : byteLen text = byteLen a + byteLen w + byteLen b := by
      rw [htext, byteLen_append, byteLen_append]
    have hceil := le_ceilBoundary (t := text)
      (n := min (byteLen a + byteLen ((encode w).map unitChar)) (byteLen text)) (by omega)
    simp only [matchSpan, byteOffset_start (htext.trans (List.append_assoc ..)) hstart hlt,
      hwhole htext hstart hstop] at hto
    omega
  · rintro ⟨a, w, b, htext, hstart, hstop, hlt, hwb⟩
    have hfrom := byteOffset_start (htext.trans (List.append_assoc ..)) hstart hlt
    refine ⟨a, w, b, htext, hstart, hstop, hfrom, ?_⟩
    have hmin : min (byteLen a + byteLen ((encode w).map unitChar)) (byteLen text) =
        byteLen (a ++ w) := by
      have hlong := (byteLen_unitChars w).1
      rw [htext, byteLen_append, byteLen_append]
      rcases hwb with hbmp | rfl
      · rw [map_unitChar_encode hbmp]
        omega
      · rw [byteLen_nil]
        omega
    have hcut : ceilBoundary text (byteLen (a ++ w)) = byteLen (a ++ w) := by
      rw [htext, ceilBoundary_cut]
    simp only [matchSpan, hfrom, hwhole htext hstart hstop]
    rw [hmin, hcut, byteLen_append]

/-! ## §5 What the loops report -/

section Loops

variable {rx : Regex P} {p : P} {o : RegExpObject} {input : Units} {i start fuel : Nat}
  {ms : List Match}

theorem collectMatches_run (hfound : rx.Bounded) (hp : compilePattern rx o.source o.flags = .ok p)
    (htracks : o.tracks = true) (hwritable : o.writable = true) (hstart : start ≤ i)
    (hpos : 0 < fuel) (hfuel : input.length + 2 ≤ fuel + i) :
    ∃ o', collectMatches rx input fuel { o with lastIndex := i } start =
      some (o', .ok (matchesFrom (o.attempt rx p input) fuel i)) := by
  induction fuel generalizing i start with
  | zero => omega
  | succ fuel ih =>
    rw [collectMatches, runExec_at hfound hp htracks hwritable, matchesFrom]
    cases hm : o.attempt rx p input i with
    | none => exact ⟨_, rfl⟩
    | some m =>
      obtain ⟨hlt, hle⟩ := lt_next hfound hm
      simp only [Nat.not_le.mpr (Nat.lt_of_le_of_lt hstart hlt), if_false]
      by_cases hend : m.next > input.length
      · have hnone : matchesFrom (o.attempt rx p input) fuel m.next = [] := by
          cases fuel with
          | zero => rfl
          | succ fuel => rw [matchesFrom, attempt_of_lt hfound hend]
        rw [if_pos hend, hnone]
        exact ⟨_, rfl⟩
      · obtain ⟨o', h⟩ := ih (Nat.le_refl m.next) (by omega) (by omega)
        rw [if_neg hend, h]
        exact ⟨o', rfl⟩

theorem execRun_of_reports (hfound : rx.Bounded)
    (hp : compilePattern rx o.source o.flags = .ok p) (htracks : o.tracks = true)
    (hwritable : o.writable = true) (h : Reports (o.attempt rx p input) Match.next i ms) :
    ExecRun rx input { o with lastIndex := i } ms := by
  induction ms generalizing i with
  | nil =>
    have hm : o.attempt rx p input i = none := h
    have hrun : runExec rx { o with lastIndex := i } input = _ :=
      runExec_at hfound hp htracks hwritable i
    rw [hm] at hrun
    exact .done hrun
  | cons m ms ih =>
    obtain ⟨hm, hrest⟩ := h
    have hrun : runExec rx { o with lastIndex := i } input = _ :=
      runExec_at hfound hp htracks hwritable i
    rw [hm] at hrun
    exact .step hrun (ih hrest)

theorem ExecRun.unique {ms' : List Match} (h : ExecRun rx input o ms)
    (h' : ExecRun rx input o ms') : ms = ms' := by
  induction h generalizing ms' with
  | done hrun =>
    cases h' with
    | done => rfl
    | step hrun' =>
      rw [hrun] at hrun'
      cases congrArg Prod.snd hrun'
  | step hrun _ ih =>
    cases h' with
    | done hrun' =>
      rw [hrun] at hrun'
      cases congrArg Prod.snd hrun'
    | step hrun' hrest' =>
      rw [hrun] at hrun'
      obtain ⟨rfl, hm⟩ := Prod.mk.inj hrun'
      obtain rfl := Option.some.inj (Except.ok.inj hm)
      rw [ih hrest']

end Loops

namespace Drive

variable {rx : Regex P} {p : P} {o : RegExpObject}

theorem run_writable (hfound : rx.Bounded) (hp : compilePattern rx o.source o.flags = .ok p)
    (hg : o.has 'g' = true) (hwritable : o.writable = true) (s : Units) (drive : Drive)
    {fuel : Nat} (hfuel : (subject s).length + 2 ≤ fuel) :
    ∃ o', drive.run rx fuel o s = some (o', .ok (drive.shown s
      (matchesFrom (o.attempt rx p (subject s)) fuel (drive.start o)))) := by
  have htracks := tracks_of_global hg
  have hpos : 0 < fuel := by omega
  have hfrom (i : Nat) : (subject s).length + 2 ≤ fuel + i := Nat.le_add_right_of_le hfuel
  cases drive with
  | spans =>
    obtain ⟨o', h⟩ := collectMatches_run (i := o.lastIndex) hfound hp htracks hwritable
      (Nat.zero_le _) hpos (hfrom _)
    rw [run, subject, collectMatchSpans_eq_map, ← subject, h]
    exact ⟨o', rfl⟩
  | stringMatchAll =>
    obtain ⟨o', h⟩ := collectMatches_run (i := 0) hfound hp htracks hwritable
      (Nat.le_refl 0) hpos (hfrom 0)
    rw [run, writeLastIndex_writable 0 hwritable]
    simp only [h]
    exact ⟨o', rfl⟩
  | symbolMatch =>
    rw [run, writeLastIndex_writable 0 hwritable]
    simp only [drain_eq hfound hp htracks hwritable hpos (hfrom 0)]
    exact ⟨_, rfl⟩
  | symbolMatchAll =>
    rw [run, writeLastIndex_writable o.lastIndex hwritable]
    simp only [drain_eq hfound hp htracks hwritable hpos (hfrom o.lastIndex)]
    exact ⟨_, rfl⟩
  | symbolReplace template =>
    rw [run, writeLastIndex_writable 0 hwritable]
    simp only [replaceLoop_eq hfound hp htracks hwritable (Nat.le_refl 0) hpos (hfrom 0)]
    exact ⟨_, rfl⟩

theorem run_readOnly (hfound : rx.Bounded) (hp : compilePattern rx o.source o.flags = .ok p)
    (hg : o.has 'g' = true) (hwritable : o.writable = false) (s : Units) (drive : Drive)
    {fuel : Nat} (hpos : 0 < fuel) :
    drive.run rx fuel o s = some (o, .error (.exec .readOnlyLastIndex)) := by
  obtain ⟨fuel, rfl⟩ : ∃ n, fuel = n + 1 := ⟨fuel - 1, by omega⟩
  cases drive with
  | spans =>
    rw [run, collectMatchSpans, runExec_readOnly hfound hp (tracks_of_global hg) hwritable]
    rfl
  | stringMatchAll | symbolMatch | symbolMatchAll | symbolReplace template =>
    rw [run, writeLastIndex_readOnly _ hwritable]

theorem correct_iff (hfound : rx.Bounded) (hp : compilePattern rx o.source o.flags = .ok p)
    (hg : o.has 'g' = true) (s : Units) (drive : Drive) :
    drive.Correct rx p o s ↔ drive.Fits rx p o s := by
  have htracks := tracks_of_global hg
  cases hwritable : o.writable with
  | false =>
    refine iff_of_false (fun h => ?_) fun h => Bool.noConfusion (hwritable.symm.trans h.1)
    obtain ⟨o', ms, hrun, -⟩ := h _ (Nat.le_refl _)
    rw [run_readOnly hfound hp hg hwritable s drive (by omega)] at hrun
    cases congrArg Prod.snd (Option.some.inj hrun)
  | true =>
    have hchain {fuel : Nat} (hfuel : (subject s).length + 2 ≤ fuel) :=
      reports_matchesFrom (p := p) (o := o) (i := drive.start o) hfound (by omega : 0 < fuel)
        (Nat.le_trans hfuel (Nat.le_add_right ..))
    have hexec {fuel : Nat} (hfuel : (subject s).length + 2 ≤ fuel) :=
      execRun_of_reports hfound hp htracks hwritable (hchain hfuel)
    constructor
    · intro h
      have hfuel := Nat.le_refl ((subject s).length + 2)
      obtain ⟨o', ms, -, hrun, hreports, -, hcuts⟩ := h _ hfuel
      obtain rfl := hrun.unique (hexec hfuel)
      obtain ⟨hstart, hnext⟩ := (hchain hfuel).iff_next.mp hreports
      refine ⟨hwritable, hstart, (allFrom_iff (hchain hfuel)).mpr fun m hm => ⟨hnext m hm, ?_⟩⟩
      exact fun hspans => cuts_matchSpan_iff.mp (hcuts hspans m hm)
    · rintro ⟨-, hstart, hall⟩ fuel hfuel
      have hms := (allFrom_iff (hchain hfuel)).mp hall
      obtain ⟨o', hrun⟩ := run_writable hfound hp hg hwritable s drive hfuel
      refine ⟨o', _, hrun, hexec hfuel, ?_, (hchain hfuel).advancing hfound, ?_⟩
      · exact (hchain hfuel).iff_next.mpr ⟨hstart, fun m hm => (hms m hm).1⟩
      · exact fun hspans m hm => cuts_matchSpan_iff.mpr ((hms m hm).2 hspans)

end Drive

/-- **`exec` shows the units of its match**, and its loops list the matches, exactly if
`lastIndex` can be written, the match has no surrogates, and the searches are those of
ECMAScript. -/
theorem exec_drives_exactly (rx : Regex P) (hfound : rx.Bounded) (o : RegExpObject) (p : P)
    (hp : compilePattern rx o.source o.flags = .ok p) (s : Units) :
    (ExecCorrect rx p o s ↔ ExecFits rx p o s) ∧
      ∀ drive : Drive, o.has 'g' = true → (drive.Correct rx p o s ↔ drive.Fits rx p o s) :=
  ⟨execCorrect_iff hfound hp s, fun drive hg => drive.correct_iff hfound hp hg s⟩

/-- `"ba"` and `/a/g`: one `exec`, and the loop of `"ba".match(/a/g)`. -/
theorem exec_drives_letterA :
    ExecCorrect letterRegex 'a' letterA (encode ['b', 'a']) ∧
      Drive.spans.Correct letterRegex 'a' letterA (encode ['b', 'a']) := by
  have hreports : Reports (letterA.attempt letterRegex 'a' (subject (encode ['b', 'a']))) Match.next 0
      [⟨1, 2, []⟩] := ⟨rfl, rfl⟩
  have hslice : slice (encode ['b', 'a']) 1 2 = [97] := rfl
  have hspan : PlainSpan (encode ['b', 'a']) 1 2 := by
    rw [PlainSpan, hslice]
    simp only [List.mem_singleton, forall_eq]
    decide
  have hplain : Match.NoSurrogates (encode ['b', 'a']) ⟨1, 2, []⟩ := ⟨hspan, by simp⟩
  have hcut : Match.Cut (decode (encode ['b', 'a'])) ⟨1, 2, []⟩ :=
    ⟨['b'], ['a'], [], rfl, rfl, rfl, by decide, .inr rfl⟩
  obtain ⟨hexec, hdrives⟩ := exec_drives_exactly letterRegex letterRegex_documented.found letterA 'a'
    rfl (encode ['b', 'a'])
  refine ⟨hexec.mpr ⟨fun _ => rfl, ?_⟩, (hdrives .spans rfl).mpr ⟨rfl, rfl, fun fuel m hm => ?_⟩⟩
  · rintro m hm
    obtain rfl := Option.some.inj (hreports.1.symm.trans hm)
    exact hplain
  · obtain rfl := List.mem_singleton.mp (hreports.of_matchesFrom m hm)
    exact ⟨rfl, fun _ => hcut⟩

/-- `re = /a/g; re.lastIndex = 1; "a".match(re)` finds nothing. -/
theorem not_drives_from_zero :
    ¬ Drive.spans.Correct letterRegex 'a' { letterA with lastIndex := 1 } (encode ['a']) := by
  intro h
  obtain ⟨o', ms, hrun, -, hreports, -⟩ := h 3 (by decide)
  have hempty : Drive.spans.run letterRegex 3 { letterA with lastIndex := 1 } (encode ['a']) =
      some (letterA, .ok (.spans [])) := rfl
  rw [hempty] at hrun
  have hshown := Except.ok.inj (congrArg Prod.snd (Option.some.inj hrun))
  have hnil := List.map_eq_nil_iff.mp (Reported.spans.inj hshown).symm
  have hfirst : RegExpObject.attempt { letterA with lastIndex := 1 } letterRegex 'a'
      (subject (encode ['a'])) 0 = some ⟨0, 1, []⟩ := rfl
  rw [hnil] at hreports
  cases hfirst.symm.trans hreports

end V12.Engine
