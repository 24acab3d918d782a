/-
V12.Engine.StringReplace — `replace`, `replaceAll` and `split` of
`v12-engine/src/builtins/string.rs` for search strings, and the splicing and the
templates that `replace` shares with regular expressions.

The first occurrence is expanded by `expand_replacement`; an empty search and
`replaceAll` put the template in as it is, and both treat an empty search as an
occurrence at the front only.
-/
import V12.Engine.StringRegExpTheorems
import V12.Engine.StringWindows
import V12.Lib.EncodedSearch

namespace V12.StringMethods

open Lib.Utf16
open Lib.Occurrences
open V12.Engine (Text groupText expandReplacement expandedLen expandedLen_eq maxReplaceLen MatchSpan
  spliceSpans)

variable {groups : List Text} {template : Text}

/-! ## §1 The methods -/

/-- `saturating_add` of 64 bits. -/
def saturatingAdd (a b : Nat) : Nat := min (a + b) (2 ^ 64 - 1)

/-- The loop of `expanded_len`, which counts in 64 bits. -/
def expandedLenFrom (whole : Text) (groups : List Text) : Nat → Text → Nat
  | len, [] => len
  | len, '$' :: c :: rest =>
    if c = '$' then expandedLenFrom whole groups (saturatingAdd len 1) rest
    else if c = '&' then expandedLenFrom whole groups (saturatingAdd len (byteLen whole)) rest
    else if c.isDigit then
      expandedLenFrom whole groups
        (saturatingAdd len (byteLen (groupText whole groups (c.toNat - '0'.toNat)))) rest
    else expandedLenFrom whole groups (saturatingAdd len (1 + c.utf8Size)) rest
  | len, c :: rest => expandedLenFrom whole groups (saturatingAdd len c.utf8Size) rest

def replaceTooLong : String := "RangeError: replace result exceeds maximum string length"

/-- `replace_first_occurrence`. -/
def replaceFirstOccurrence (text needle replacement : Text) : Except String Text :=
  if needle = [] then
    if saturatingAdd (byteLen replacement) (byteLen text) > maxReplaceLen then .error replaceTooLong
    else .ok (replacement ++ text)
  else
    match firstAt text needle with
    | some i =>
      let expansion := expandedLenFrom needle [] 0 replacement
      if saturatingAdd (byteLen text - byteLen needle) expansion > maxReplaceLen then
        .error replaceTooLong
      else
        .ok (text.take i ++ expandReplacement needle [] replacement ++ text.drop (i + needle.length))
    | none => .ok text

/-- `string_replace` with a search string. -/
def stringReplace (s search replacement : Units) : Except String Units :=
  (replaceFirstOccurrence (thisText s) (thisText search) (thisText replacement)).map utf16

def stringReplaceAll (s search replacement : Units) : Units :=
  let text := thisText s
  let search := thisText search
  let replacement := thisText replacement
  if search = [] then utf16 (replacement ++ text) else utf16 (replaceAll search replacement 0 text)

/-- `string_split` with a separator string and no limit. -/
def stringSplit (s separator : Units) : List Units :=
  let text := thisText s
  let sep := thisText separator
  if sep = [] then text.map fun c => utf16 [c] else (splitAll sep 0 [] text).map utf16

/-- `array_join_fallback` on an array of strings, which reads at most a million elements. -/
def arrayJoin (elements : List Units) (separator : Units) : Units :=
  utf16 ((thisText separator).intercalate ((elements.take 1000000).map thisText))

/-- A match of a regular expression: the text in front of it, the match and its groups. -/
structure Cut where
  gap : Text
  whole : Text
  captures : List (Option Text)

def subjectOf (cuts : List Cut) (tail : Text) : Text :=
  cuts.flatMap (fun cut => cut.gap ++ cut.whole) ++ tail

/-- What `collect_match_spans` makes of the matches, from a byte offset on. -/
def spansOf : Nat → List Cut → List MatchSpan
  | _, [] => []
  | cursor, cut :: cuts =>
    let start := cursor + byteLen cut.gap
    let stop := start + byteLen cut.whole
    { start, stop, groups := (List.range 9).map fun i => cut.captures[i]?.join } :: spansOf stop cuts

/-- `string_replace` with the matches of a regular expression. -/
def spliceCuts (cuts : List Cut) (tail template : Text) : Except String Units :=
  match spliceSpans (subjectOf cuts tail) template (spansOf 0 cuts) [] 0 with
  | .ok out => .ok (utf16 out)
  | .error _ => .error replaceTooLong

/-! ## §2 What they are for -/

def digit (u : BitVec 16) : Option Nat :=
  if 0x30 ≤ u.toNat ∧ u.toNat ≤ 0x39 then some (u.toNat - 0x30) else none

def capture (captures : List Units) (n : Nat) : Option Units :=
  if n = 0 then none else captures[n - 1]?

/-- The capture of two digits, if there is one, or else that of the first. -/
def numbered (captures : List Units) (a : Nat) (b : Option Nat) : Option (Units × Nat) :=
  match b.bind fun b => capture captures (10 * a + b) with
  | some text => some (text, 2)
  | none => (capture captures a).map fun text => (text, 1)

/-- What a template stands for at its front, and how many units behind the `$` it is: `$$`, `$&`,
or one or two digits that are the number of a capture. -/
def reference (matched : Units) (captures : List Units) : Units → Option (Units × Nat)
  | u :: c :: rest =>
    if u = 0x24 then
      if c = 0x24 then some ([0x24], 1)
      else if c = 0x26 then some (matched, 1)
      else (digit c).bind fun a => numbered captures a (rest.head?.bind digit)
    else none
  | _ => none

/-- `GetSubstitution`; what belongs to a reference already read is skipped. -/
def getSubstitution (matched : Units) (captures : List Units) : Nat → Units → Units
  | _, [] => []
  | skip + 1, _ :: rest => getSubstitution matched captures skip rest
  | 0, u :: rest =>
    match reference matched captures (u :: rest) with
    | some (text, skip) => text ++ getSubstitution matched captures skip rest
    | none => u :: getSubstitution matched captures 0 rest

/-- The limit: a result of more than `2 ^ 28` bytes is refused. -/
def limited (out : Units) : Except String Units :=
  if maxReplaceLen < byteLen (decode out) then .error replaceTooLong else .ok out

/-- A call of a method, or of a function that they share. -/
inductive Replacement where
  | replace (s search template : JsString)
  | replaceAll (s search template : JsString)
  | splitJoin (s search template : JsString)
  | splice (first : Cut) (cuts : List Cut) (tail : Text) (template : Text)
  | expand (template whole : Text) (groups : List Text)
  | project (template whole : Text) (groups : List Text)

/-- What the template is expanded to for a match of a regular expression. -/
def Cut.substitution (cut : Cut) (template : Text) : Units :=
  getSubstitution (encode cut.whole) (cut.captures.map fun g => encode (g.getD [])) 0
    (encode template)

def spliced (cuts : List Cut) (template : Text) : Units :=
  cuts.flatMap fun cut => encode cut.gap ++ cut.substitution template

/-- A call replaces the first occurrence, or all of them, by the expanded replacement. -/
def Substitutes : Replacement → Prop
  | .replace s t r =>
    ∃ place, First (· < ·) (OccursAt s.units t.units) place ∧
      stringReplace s.units t.units r.units =
        match place with
        | some k => limited (s.units.take k ++ getSubstitution t.units [] 0 r.units ++
          s.units.drop (k + t.units.length))
        | none => .ok s.units
  | .replaceAll s t r =>
    let template := getSubstitution t.units [] 0 r.units
    if t.units = [] then
      stringReplaceAll s.units t.units r.units = template ++ s.units.flatMap fun u => u :: template
    else Replaces t.units template s.units (stringReplaceAll s.units t.units r.units)
  | .splitJoin s t r => 0x24 ∉ r.units →
    stringReplaceAll s.units t.units r.units = arrayJoin (stringSplit s.units t.units) r.units
  | .splice first cuts tail template =>
    spliceCuts (first :: cuts) tail template =
      limited (spliced (first :: cuts) template ++ encode tail)
  | .expand template whole groups => encode (expandReplacement whole groups template) =
    getSubstitution (encode whole) (groups.map encode) 0 (encode template)
  | .project template whole groups =>
    expandedLenFrom whole groups 0 template = byteLen (expandReplacement whole groups template)

/-! ## §3 When they do it -/

/-- What stands behind each `$` of a template that is read, and the character behind that. -/
def escapes : Text → List (Char × Option Char)
  | '$' :: c :: rest => (c, rest.head?) :: escapes rest
  | _ :: rest => escapes rest
  | [] => []

/-- It is not `$$` or `$&`. -/
def Verbatim (e : Char × Option Char) : Prop := e.1 ≠ '$' ∧ e.1 ≠ '&'

/-- If it is a digit, it is the number of one of so many groups, and two digits are not. -/
def Refers (groups : Nat) (e : Char × Option Char) : Prop :=
  e.1.isDigit = true → 1 ≤ e.1.toNat - 48 ∧ e.1.toNat - 48 ≤ groups ∧
    ∀ d ∈ e.2, d.isDigit = true → groups < 10 * (e.1.toNat - 48) + (d.toNat - 48)

def Replacement.Plain : Replacement → Prop
  | .replace s t r => Paired s.units ∧ Paired t.units ∧ (t.units <:+: s.units → Paired r.units ∧
      ∀ e ∈ escapes (decode r.units), if t.units = [] then Verbatim e else Refers 0 e)
  | .replaceAll s t r => Paired s.units ∧ Paired t.units ∧ (t.units <:+: s.units →
      Paired r.units ∧ (∀ e ∈ escapes (decode r.units), Verbatim e) ∧
        (t.units = [] → r.units ≠ [] → s.units = []))
  | .splitJoin s t r => 0x24 ∉ r.units → (t.units = [] → r.units = []) ∧
      (if t.units = [] then (decode s.units).length
        else occurrences (decode t.units) 0 (decode s.units) + 1) ≤ 1000000
  | .splice first cuts tail template =>
    (∀ cut ∈ first :: cuts, ∀ e ∈ escapes template, Refers cut.captures.length e) ∧
      (byteLen (decode (spliced (first :: cuts) template)) ≤ maxReplaceLen →
        byteLen (decode (spliced (first :: cuts) template)) + byteLen tail ≤ maxReplaceLen)
  | .expand template _ groups => ∀ e ∈ escapes template, Refers groups.length e
  | .project template whole groups => byteLen (expandReplacement whole groups template) < 2 ^ 64

/-! ## §4 Templates -/

theorem expandedLenFrom_eq (whole : Text) (groups : List Text) {len : Nat} (hlen : len < 2 ^ 64)
    (template : Text) : expandedLenFrom whole groups len template =
      min (len + expandedLen whole groups template) (2 ^ 64 - 1) := by
  fun_induction expandedLenFrom whole groups len template with
  | case1 len =>
    simp only [expandedLen]
    omega
  | case2 len rest ih =>
    have hlt : saturatingAdd len 1 < 2 ^ 64 := by unfold saturatingAdd; omega
    rw [ih hlt]
    simp only [expandedLen, if_true, saturatingAdd]
    omega
  | case3 len rest hd ih =>
    have hlt : saturatingAdd len (byteLen whole) < 2 ^ 64 := by unfold saturatingAdd; omega
    rw [ih hlt]
    simp only [expandedLen, hd, if_false, if_true, saturatingAdd]
    omega
  | case4 len c rest hd ha hdigit ih =>
    have hlt : saturatingAdd len (byteLen (groupText whole groups (c.toNat - '0'.toNat))) < 2 ^ 64 := by
      unfold saturatingAdd
      omega
    rw [ih hlt]
    simp only [expandedLen, hd, ha, hdigit, if_false, if_true, saturatingAdd]
    omega
  | case5 len c rest hd ha hdigit ih =>
    have hlt : saturatingAdd len (1 + c.utf8Size) < 2 ^ 64 := by unfold saturatingAdd; omega
    rw [ih hlt]
    simp only [expandedLen, hd, ha, hdigit, if_false, saturatingAdd]
    simp
    omega
  | case6 len c rest h ih =>
    have hlt : saturatingAdd len c.utf8Size < 2 ^ 64 := by unfold saturatingAdd; omega
    rw [ih hlt, expandedLen.eq_3 _ _ c rest h]
    unfold saturatingAdd
    omega

theorem expandedLenFrom_zero (whole : Text) (groups : List Text) (template : Text) :
    expandedLenFrom whole groups 0 template =
      min (byteLen (expandReplacement whole groups template)) (2 ^ 64 - 1) := by
  rw [expandedLenFrom_eq whole groups (by decide), Nat.zero_add, expandedLen_eq]

theorem encodeChar_front (c : Char) : ∃ u rest, encodeChar c = u :: rest ∧
    (c.toNat < 128 → u.toNat = c.toNat ∧ rest = []) ∧ (128 ≤ c.toNat → 128 ≤ u.toNat) := by
  unfold encodeChar
  split
  case isTrue h =>
    refine ⟨_, [], rfl, fun _ => ⟨?_, rfl⟩, fun hlarge => ?_⟩
    · rw [BitVec.toNat_ofNat, Nat.mod_eq_of_lt h]
    · rw [BitVec.toNat_ofNat, Nat.mod_eq_of_lt h]
      exact hlarge
  case isFalse h =>
    have hvalid := toNat_not_surrogate c
    refine ⟨_, _, rfl, fun hsmall => by omega, fun _ => ?_⟩
    rw [BitVec.toNat_ofNat, Nat.mod_eq_of_lt (by omega)]
    omega

theorem digit_front {c : Char} {u : BitVec 16} {rest : Units} (h : encodeChar c = u :: rest) :
    (digit u = if c.isDigit = true then some (c.toNat - 48) else none) ∧
      (u = 0x24 ↔ c = '$') ∧ (u = 0x26 ↔ c = '&') := by
  obtain ⟨u', rest', hunits, hascii, hlarge⟩ := encodeChar_front c
  obtain ⟨rfl, rfl⟩ := List.cons.inj (h.symm.trans hunits)
  have hdigit : c.isDigit = true ↔ 48 ≤ c.toNat ∧ c.toNat ≤ 57 := by
    rw [Lib.Utf8.isDigit_iff, Lib.Utf8.asciiDigit_iff]
  have hchar (d : Char) (hd : d.toNat < 128) : u.toNat = d.toNat ↔ c = d := by
    rw [← Char.toNat_inj]
    by_cases hsmall : c.toNat < 128
    · rw [(hascii hsmall).1]
    · have := hlarge (Nat.le_of_not_lt hsmall)
      omega
  refine ⟨?_, ?_, ?_⟩
  · unfold digit
    by_cases hsmall : c.toNat < 128
    · rw [(hascii hsmall).1]
      simp only [hdigit]
    · have := hlarge (Nat.le_of_not_lt hsmall)
      rw [if_neg (by omega), if_neg (by rw [hdigit]; omega)]
  · rw [← hchar '$' (by decide), ← BitVec.toNat_inj]
    rfl
  · rw [← hchar '&' (by decide), ← BitVec.toNat_inj]
    rfl

section Templates

variable (matched : Units) (captures : List Units)

theorem getSubstitution_pass {u : BitVec 16} (h : u ≠ 0x24) (rest : Units) :
    getSubstitution matched captures 0 (u :: rest) =
      u :: getSubstitution matched captures 0 rest := by
  have hnone : reference matched captures (u :: rest) = none := by
    cases rest with
    | nil => rfl
    | cons c rest => exact if_neg h
  rw [getSubstitution, hnone]

theorem getSubstitution_encodeChar {c : Char} (h : c ≠ '$') (rest : Units) :
    getSubstitution matched captures 0 (encodeChar c ++ rest) =
      encodeChar c ++ getSubstitution matched captures 0 rest := by
  obtain ⟨u, more, hunits, -, -⟩ := encodeChar_front c
  have hfront := mt (digit_front hunits).2.1.mp h
  rw [hunits, List.cons_append, getSubstitution_pass matched captures hfront]
  rcases encodeChar_cases c with ⟨v, hv⟩ | ⟨v, w, hv, hw⟩
  · obtain ⟨rfl, rfl⟩ := List.cons.inj (hunits.symm.trans hv)
    rfl
  · obtain ⟨rfl, rfl⟩ := List.cons.inj (hunits.symm.trans hv)
    have hlow : w ≠ 0x24 := by
      rintro rfl
      revert hw
      decide
    rw [List.singleton_append, getSubstitution_pass matched captures hlow]
    rfl

theorem getSubstitution_dollar {c : Char} (h : c ≠ '$') (rest : Text)
    (hnone : reference matched captures (0x24 :: (encodeChar c ++ encode rest)) = none) :
    getSubstitution matched captures 0 (encode ('$' :: c :: rest)) =
      encode ['$', c] ++ getSubstitution matched captures 0 (encode rest) := by
  change getSubstitution matched captures 0 (0x24 :: (encodeChar c ++ encode rest)) = _
  rw [getSubstitution, hnone]
  dsimp only
  rw [getSubstitution_encodeChar matched captures h, encode_cons, encode_cons, encode_nil,
    List.append_nil, List.append_assoc]
  rfl

theorem reference_digit {c : Char} (hdigit : c.isDigit = true) (rest : Text) :
    reference matched captures (0x24 :: (encodeChar c ++ encode rest)) =
      numbered captures (c.toNat - 48) ((encode rest).head?.bind digit) := by
  obtain ⟨u, more, hunits, hascii, -⟩ := encodeChar_front c
  obtain ⟨hvalue, hdollar, hand⟩ := digit_front hunits
  have hrange := V12.Engine.isDigit_toNat hdigit
  obtain ⟨-, rfl⟩ := hascii (by omega)
  have hne (d : Char) (hd : d.toNat < 48) : c ≠ d := by
    rintro rfl
    omega
  rw [hunits, List.singleton_append, reference, if_pos rfl,
    if_neg (mt hdollar.mp (hne '$' (by decide))), if_neg (mt hand.mp (hne '&' (by decide))), hvalue,
    if_pos hdigit]
  rfl

theorem reference_other {c : Char} (hd : c ≠ '$') (ha : c ≠ '&') (hdigit : ¬ c.isDigit = true)
    (rest : Text) : reference matched captures (0x24 :: (encodeChar c ++ encode rest)) = none := by
  obtain ⟨u, more, hunits, -, -⟩ := encodeChar_front c
  obtain ⟨hvalue, hdollar, hand⟩ := digit_front hunits
  rw [hunits, List.cons_append, reference, if_pos rfl, if_neg (mt hdollar.mp hd),
    if_neg (mt hand.mp ha), hvalue, if_neg hdigit]
  rfl

theorem head_digit (rest : Text) {b : Nat} (h : (encode rest).head?.bind digit = some b) :
    ∃ d ∈ rest.head?, d.isDigit = true ∧ b = d.toNat - 48 := by
  cases rest with
  | nil => cases h
  | cons d rest =>
    obtain ⟨u, more, hunits, -, -⟩ := encodeChar_front d
    rw [encode_cons, hunits] at h
    change digit u = some b at h
    rw [(digit_front hunits).1] at h
    split at h
    case isTrue hdigit => exact ⟨d, rfl, hdigit, (Option.some.inj h).symm⟩
    case isFalse => cases h

theorem numbered_nil (a : Nat) (b : Option Nat) : numbered [] a b = none := by
  have hnone (n : Nat) : capture [] n = none := by
    unfold capture
    split <;> rfl
  unfold numbered
  cases b <;> simp [hnone]

end Templates

theorem numbered_refers {c : Char} {rest : Text} (hdigit : c.isDigit = true)
    (h : Refers groups.length (c, rest.head?)) (whole : Text) :
    numbered (groups.map encode) (c.toNat - 48) ((encode rest).head?.bind digit) =
      some (encode (groupText whole groups (c.toNat - 48)), 1) := by
  obtain ⟨hpos, hle, htwo⟩ := h hdigit
  dsimp only at hpos hle htwo
  have hfirst : capture (groups.map encode) (c.toNat - 48) =
      some (encode (groupText whole groups (c.toNat - 48))) := by
    unfold capture groupText
    rw [if_neg (by omega), if_neg (by omega), List.getElem?_map,
      List.getElem?_eq_getElem (by omega)]
    rfl
  have hsecond : (((encode rest).head?.bind digit).bind fun b =>
      capture (groups.map encode) (10 * (c.toNat - 48) + b)) = none := by
    cases hnext : (encode rest).head?.bind digit with
    | none => rfl
    | some b =>
      obtain ⟨d, hd, hdigit', rfl⟩ := head_digit rest hnext
      have hlt := htwo d hd hdigit'
      change capture _ _ = none
      unfold capture
      rw [if_neg (by omega), List.getElem?_eq_none (by rw [List.length_map]; omega)]
  unfold numbered
  rw [hsecond, hfirst]
  rfl

/-- **`expand_replacement` is `GetSubstitution`** where every digit refers to a group. -/
theorem getSubstitution_expand (whole : Text) (h : ∀ e ∈ escapes template, Refers groups.length e) :
    getSubstitution (encode whole) (groups.map encode) 0 (encode template) =
      encode (expandReplacement whole groups template) := by
  fun_induction expandReplacement whole groups template with
  | case1 => rfl
  | case2 rest ih =>
    rw [escapes] at h
    rw [encode_cons '$' (expandReplacement whole groups rest),
      ← ih fun e he => h e (List.mem_cons_of_mem _ he)]
    rfl
  | case3 rest hd ih =>
    rw [escapes] at h
    rw [encode_append, ← ih fun e he => h e (List.mem_cons_of_mem _ he)]
    rfl
  | case4 c rest hd ha hdigit ih =>
    rw [escapes] at h
    obtain ⟨u, more, hunits, hascii, -⟩ := encodeChar_front c
    have hrange := V12.Engine.isDigit_toNat hdigit
    obtain ⟨-, rfl⟩ := hascii (by omega)
    have hreference := reference_digit (encode whole) (groups.map encode) hdigit rest
    rw [numbered_refers hdigit (h _ List.mem_cons_self) whole, hunits] at hreference
    rw [encode_append, ← ih fun e he => h e (List.mem_cons_of_mem _ he), encode_cons, encode_cons,
      hunits]
    change getSubstitution _ _ 0 (0x24 :: ([u] ++ encode rest)) = _
    rw [getSubstitution, hreference]
    rfl
  | case5 c rest hd ha hdigit ih =>
    rw [escapes] at h
    rw [getSubstitution_dollar _ _ hd rest (reference_other _ _ hd ha hdigit rest),
      ih fun e he => h e (List.mem_cons_of_mem _ he), ← encode_append]
    rfl
  | case6 c rest hne ih =>
    rw [escapes.eq_2 _ _ hne] at h
    by_cases hc : c = '$'
    · cases rest with
      | nil =>
        subst hc
        rfl
      | cons d rest => exact absurd rfl (hne d rest hc)
    · rw [encode_cons, encode_cons, getSubstitution_encodeChar _ _ hc, ih h]

theorem getSubstitution_verbatim (matched : Units) (h : ∀ e ∈ escapes template, Verbatim e) :
    getSubstitution matched [] 0 (encode template) = encode template := by
  fun_induction escapes template with
  | case1 c rest ih =>
    obtain ⟨hd, ha⟩ := h _ List.mem_cons_self
    have hnone : reference matched [] (0x24 :: (encodeChar c ++ encode rest)) = none := by
      by_cases hdigit : c.isDigit = true
      · rw [reference_digit matched [] hdigit, numbered_nil]
      · exact reference_other matched [] hd ha hdigit rest
    rw [getSubstitution_dollar matched [] hd rest hnone,
      ih fun e he => h e (List.mem_cons_of_mem _ he), ← encode_append]
    rfl
  | case2 c rest hne ih =>
    by_cases hc : c = '$'
    · cases rest with
      | nil =>
        subst hc
        rfl
      | cons d rest => exact absurd rfl (hne d rest hc)
    · rw [encode_cons, getSubstitution_encodeChar _ _ hc, ih h]
  | case3 => rfl

theorem expandReplacement_congr {whole : Text} {groups' : List Text}
    (h : ∀ e ∈ escapes template, e.1.isDigit = true →
      groupText whole groups (e.1.toNat - 48) = groupText whole groups' (e.1.toNat - 48)) :
    expandReplacement whole groups template = expandReplacement whole groups' template := by
  fun_induction expandReplacement whole groups template with
  | case1 => rfl
  | case2 rest ih =>
    rw [ih fun e he => h e (List.mem_cons_of_mem _ he)]
    rfl
  | case3 rest hd ih =>
    rw [ih fun e he => h e (List.mem_cons_of_mem _ he)]
    rfl
  | case4 c rest hd ha hdigit ih =>
    have hgroup := h _ List.mem_cons_self hdigit
    rw [ih fun e he => h e (List.mem_cons_of_mem _ he), expandReplacement, if_neg hd, if_neg ha,
      if_pos hdigit]
    exact congrArg (· ++ _) hgroup
  | case5 c rest hd ha hdigit ih =>
    rw [ih fun e he => h e (List.mem_cons_of_mem _ he), expandReplacement, if_neg hd, if_neg ha,
      if_neg hdigit]
  | case6 c rest hne ih =>
    rw [escapes.eq_2 _ _ hne] at h
    rw [ih h, expandReplacement.eq_3 _ _ c rest hne]

/-! ## §5 Splicing -/

/-- What `string_replace` makes of the matches, up to the end of the last. -/
def splicedText (cuts : List Cut) (template : Text) : Text :=
  cuts.flatMap fun cut => cut.gap ++ expandReplacement cut.whole
    (((List.range 9).map fun i => cut.captures[i]?.join).map (·.getD [])) template

theorem spliceSpans_cuts (tail template : Text) (cuts : List Cut) {text front out : Text}
    (htext : text = front ++ subjectOf cuts tail) (hout : byteLen out ≤ maxReplaceLen) :
    spliceSpans text template (spansOf (byteLen front) cuts) out (byteLen front) =
      if maxReplaceLen < byteLen (out ++ splicedText cuts template) then .error .tooLong
      else .ok (out ++ splicedText cuts template ++ tail) := by
  induction cuts generalizing front out with
  | nil =>
    have htail : dropBytes text (byteLen front) = tail := by
      rw [htext]
      exact dropBytes_cut _ _
    have hempty : splicedText [] template = [] := rfl
    rw [hempty, List.append_nil, if_neg (Nat.not_lt.mpr hout), spansOf, spliceSpans, htail]
  | cons cut cuts ih =>
    have hcut : text = front ++ cut.gap ++ cut.whole ++ subjectOf cuts tail := by
      rw [htext]
      simp [subjectOf]
    have hgap : sliceBytes text (byteLen front) (byteLen front + byteLen cut.gap) = cut.gap := by
      rw [hcut, List.append_assoc, sliceBytes_cut]
    have hwhole : sliceBytes text (byteLen front + byteLen cut.gap)
        (byteLen front + byteLen cut.gap + byteLen cut.whole) = cut.whole := by
      rw [hcut, ← byteLen_append, sliceBytes_cut]
    have hspliced : splicedText (cut :: cuts) template = cut.gap ++ expandReplacement cut.whole
        (((List.range 9).map fun i => cut.captures[i]?.join).map (·.getD [])) template ++
          splicedText cuts template := by
      simp [splicedText]
    rw [spansOf, spliceSpans]
    simp only [hgap, hwhole, expandedLen_eq, Nat.add_sub_cancel_left]
    rw [hspliced]
    generalize expandReplacement cut.whole
      (((List.range 9).map fun i => cut.captures[i]?.join).map (·.getD [])) template = expansion
    split
    case isTrue hlong =>
      rw [if_pos (by simp only [byteLen_append]; omega)]
    case isFalse hshort =>
      have hnext := @ih (front ++ cut.gap ++ cut.whole) (out ++ cut.gap ++ expansion) hcut
        (by simp only [byteLen_append]; omega)
      simp only [byteLen_append, List.append_assoc, Nat.add_assoc] at hnext ⊢
      exact hnext

theorem spliced_eq {cuts : List Cut}
    (h : ∀ cut ∈ cuts, ∀ e ∈ escapes template, Refers cut.captures.length e) :
    spliced cuts template = encode (splicedText cuts template) := by
  induction cuts with
  | nil => rfl
  | cons cut cuts ih =>
    have hcut := h cut List.mem_cons_self
    have hcongr : expandReplacement cut.whole
        (((List.range 9).map fun i => cut.captures[i]?.join).map (·.getD [])) template =
          expandReplacement cut.whole (cut.captures.map (·.getD [])) template := by
      refine expandReplacement_congr fun e he hdigit => ?_
      obtain ⟨hpos, hle, -⟩ := hcut e he hdigit
      have hrange := V12.Engine.isDigit_toNat hdigit
      unfold groupText
      rw [if_neg (by omega), if_neg (by omega), List.getElem?_map, List.getElem?_map,
        List.getElem?_range (by omega), List.getElem?_map]
      change ((cut.captures[e.1.toNat - 48 - 1]?.join).getD []) = _
      cases cut.captures[e.1.toNat - 48 - 1]? <;> rfl
    have hsubstitution : getSubstitution (encode cut.whole)
        ((cut.captures.map (·.getD [])).map encode) 0 (encode template) =
          encode (expandReplacement cut.whole (cut.captures.map (·.getD [])) template) := by
      refine getSubstitution_expand cut.whole fun e he => ?_
      rw [List.length_map]
      exact hcut e he
    rw [List.map_map] at hsubstitution
    have hfirst : cut.substitution template = encode (expandReplacement cut.whole
        (((List.range 9).map fun i => cut.captures[i]?.join).map (·.getD [])) template) := by
      rw [hcongr]
      exact hsubstitution
    have hrest := ih fun c hc => h c (List.mem_cons_of_mem _ hc)
    unfold spliced splicedText at hrest ⊢
    rw [List.flatMap_cons, List.flatMap_cons, hrest, hfirst, encode_append, encode_append]

/-! ## §6 The methods -/

theorem limited_encode (t : Text) : limited (encode t) =
    if maxReplaceLen < byteLen t then .error replaceTooLong else .ok (encode t) := by
  unfold limited
  rw [decode_encode]

theorem saturatingAdd_lt {a b : Nat} : maxReplaceLen < saturatingAdd a (min b (2 ^ 64 - 1)) ↔
    maxReplaceLen < a + b := by
  unfold saturatingAdd maxReplaceLen
  omega

theorem exists_text {u : Units} (h : Paired u) : ∃ t, u = encode t :=
  ⟨decode u, (lossy_eq_self_iff.mpr h).symm⟩

section Texts

variable (s : Text) {t : Text} (r : Units)

theorem stringReplace_encode (ht : t ≠ []) : stringReplace (encode s) (encode t) r =
    if t <:+: s then limited (encode (replaceOnce t (expandReplacement t [] (decode r)) s))
    else .ok (encode s) := by
  have hfirst := first_firstAt s t
  unfold stringReplace replaceFirstOccurrence thisText
  rw [decode_encode, decode_encode, if_neg ht]
  generalize decode r = template
  cases hfind : firstAt s t with
  | none =>
    rw [hfind] at hfirst
    rw [if_neg (mt exists_occursAt_iff.mpr fun h => hfirst h.choose h.choose_spec)]
    rfl
  | some i =>
    rw [hfind] at hfirst
    have hsplit := congrArg byteLen hfirst.1.split
    simp only [byteLen_append] at hsplit
    rw [if_pos (exists_occursAt_iff.mp ⟨i, hfirst.1⟩), limited_encode, replaceOnce_of_some hfirst]
    dsimp only
    rw [expandedLenFrom_zero]
    simp only [gt_iff_lt, saturatingAdd_lt, byteLen_append]
    have hsize : byteLen s - byteLen t + byteLen (expandReplacement t [] template) =
        byteLen (s.take i) + byteLen (expandReplacement t [] template) +
          byteLen (s.drop (i + t.length)) := by
      omega
    rw [hsize]
    split <;> rfl

theorem stringReplace_nil : stringReplace (encode s) [] r = limited (encode (decode r ++ s)) := by
  have hcap : saturatingAdd (byteLen (decode r)) (byteLen s) > maxReplaceLen ↔
      maxReplaceLen < byteLen (decode r ++ s) := by
    rw [byteLen_append]
    unfold saturatingAdd maxReplaceLen
    omega
  unfold stringReplace replaceFirstOccurrence thisText
  rw [limited_encode, decode_encode, decode, if_pos rfl]
  simp only [hcap]
  split <;> rfl

theorem stringReplaceAll_encode (ht : t ≠ []) : stringReplaceAll (encode s) (encode t) r =
    replaceAll (encode t) (encode (decode r)) 0 (encode s) := by
  unfold stringReplaceAll thisText
  rw [decode_encode, decode_encode]
  dsimp only
  rw [if_neg ht, replaceAll_encode ht]
  rfl

end Texts

theorem substitutes_replace (s t r : JsString) (h : Replacement.Plain (.replace s t r)) :
    Substitutes (.replace s t r) := by
  obtain ⟨⟨s, _⟩, ⟨t, _⟩, ⟨r, _⟩⟩ := s, t, r
  obtain ⟨hs, ht, htemplate⟩ := h
  obtain ⟨s, rfl⟩ := exists_text hs
  obtain ⟨t, rfl⟩ := exists_text ht
  dsimp only at htemplate
  by_cases hnil : t = []
  · subst hnil
    obtain ⟨hr, hverbatim⟩ := htemplate List.nil_infix
    obtain ⟨r, rfl⟩ := exists_text hr
    rw [decode_encode] at hverbatim
    refine ⟨some 0, ⟨occursAt_nil.mpr (Nat.zero_le _), fun j hj => absurd hj (Nat.not_lt_zero j)⟩, ?_⟩
    change stringReplace (encode s) [] (encode r) =
      limited ([] ++ getSubstitution [] [] 0 (encode r) ++ encode s)
    rw [stringReplace_nil, decode_encode, getSubstitution_verbatim [] hverbatim, encode_append]
    rfl
  · have hfirst := first_firstAt (encode s) (encode t)
    refine ⟨firstAt (encode s) (encode t), hfirst, ?_⟩
    dsimp only
    rw [stringReplace_encode s r hnil]
    cases hfind : firstAt (encode s) (encode t) with
    | none =>
      rw [hfind] at hfirst
      have hnone := mt exists_occursAt_iff.mpr fun h => hfirst h.choose h.choose_spec
      rw [if_neg (mt (infix_encode_iff hnil).mpr hnone)]
    | some k =>
      rw [hfind] at hfirst
      have hoccurs := exists_occursAt_iff.mp ⟨k, hfirst.1⟩
      obtain ⟨hr, hrefers⟩ := htemplate hoccurs
      obtain ⟨r, rfl⟩ := exists_text hr
      rw [decode_encode] at hrefers ⊢
      simp only [encode_eq_nil, hnil, if_false] at hrefers
      have hexpand : getSubstitution (encode t) [] 0 (encode r) =
          encode (expandReplacement t [] r) := @getSubstitution_expand [] r t hrefers
      rw [if_pos ((infix_encode_iff hnil).mp hoccurs), ← replaceOnce_encode hnil,
        replaceOnce_of_some hfirst, hexpand]

theorem substitutes_replaceAll (s t r : JsString) (h : Replacement.Plain (.replaceAll s t r)) :
    Substitutes (.replaceAll s t r) := by
  obtain ⟨⟨s, _⟩, ⟨t, _⟩, ⟨r, _⟩⟩ := s, t, r
  obtain ⟨hs, ht, htemplate⟩ := h
  obtain ⟨s, rfl⟩ := exists_text hs
  obtain ⟨t, rfl⟩ := exists_text ht
  dsimp only at htemplate
  unfold Substitutes
  dsimp only
  by_cases hnil : t = []
  · subst hnil
    obtain ⟨hr, hverbatim, hempty⟩ := htemplate List.nil_infix
    obtain ⟨r, rfl⟩ := exists_text hr
    rw [decode_encode] at hverbatim
    rw [if_pos encode_nil, encode_nil, getSubstitution_verbatim [] hverbatim]
    have hmethod : stringReplaceAll (encode s) [] (encode r) = encode r ++ encode s := by
      unfold stringReplaceAll thisText
      rw [decode_encode, decode_encode]
      exact encode_append r s
    rw [hmethod]
    by_cases hr : encode r = []
    · rw [hr]
      simp
    · rw [hempty rfl hr]
      rfl
  · rw [if_neg (mt encode_eq_nil.mp hnil), stringReplaceAll_encode s r hnil]
    by_cases hoccurs : encode t <:+: encode s
    · obtain ⟨hr, hverbatim, -⟩ := htemplate hoccurs
      obtain ⟨r, rfl⟩ := exists_text hr
      rw [decode_encode] at hverbatim ⊢
      rw [getSubstitution_verbatim _ hverbatim]
      exact replaces_replaceAll (mt encode_eq_nil.mp hnil) _ _
    · have hnone : ∀ k, ¬ OccursAt (encode s) (encode t) k :=
        fun k hk => hoccurs (exists_occursAt_iff.mp ⟨k, hk⟩)
      rw [replaceAll_of_none hnone]
      exact .none hnone

theorem substitutes_splitJoin (s t r : JsString) (h : Replacement.Plain (.splitJoin s t r)) :
    Substitutes (.splitJoin s t r) := by
  intro hr
  obtain ⟨hempty, hfew⟩ := h hr
  unfold stringReplaceAll stringSplit arrayJoin thisText
  dsimp only
  have htext : decode t.units = [] ↔ t.units = [] := by
    constructor
    · intro h
      exact lossy_eq_nil.mp (congrArg encode h)
    · intro h
      rw [h]
      rfl
  have hmap (pieces : List Text) : (pieces.map utf16).map decode = pieces := by
    rw [List.map_map]
    exact (List.map_congr_left fun x _ => decode_encode x).trans (List.map_id _)
  by_cases hnil : t.units = []
  · rw [if_pos hnil] at hfew
    have hsplit : ((decode s.units).map fun c => utf16 [c]) =
        ((decode s.units).map fun c => [c]).map utf16 := by
      rw [List.map_map]
      rfl
    rw [if_pos (htext.mpr hnil), if_pos (htext.mpr hnil), hempty hnil,
      List.take_of_length_le (by rwa [List.length_map]), hsplit, hmap]
    exact congrArg utf16 (intercalate_singletons _).symm
  · rw [if_neg hnil] at hfew
    rw [if_neg (mt htext.mp hnil), if_neg (mt htext.mp hnil),
      List.take_of_length_le (by rw [List.length_map, length_splitAll]; exact hfew), hmap,
      intercalate_splitAll, List.nil_append]

theorem substitutes_splice (first : Cut) (cuts : List Cut) (tail template : Text)
    (h : Replacement.Plain (.splice first cuts tail template)) :
    Substitutes (.splice first cuts tail template) := by
  obtain ⟨hrefers, hfits⟩ := h
  unfold Substitutes
  dsimp only
  rw [spliced_eq hrefers, decode_encode] at hfits
  rw [spliced_eq hrefers, ← encode_append, limited_encode, byteLen_append]
  unfold spliceCuts
  have hloop := @spliceSpans_cuts tail template (first :: cuts) (subjectOf (first :: cuts) tail) [] []
    rfl (Nat.zero_le _)
  rw [byteLen_nil, List.nil_append] at hloop
  rw [hloop]
  by_cases hlong : maxReplaceLen < byteLen (splicedText (first :: cuts) template)
  · rw [if_pos hlong, if_pos (by omega)]
  · rw [if_neg hlong, if_neg (by have := hfits (Nat.le_of_not_lt hlong); omega)]
    rfl

/-- **A call substitutes as it should** under the condition. -/
theorem substitutes (c : Replacement) (h : c.Plain) : Substitutes c := by
  cases c with
  | replace s t r => exact substitutes_replace s t r h
  | replaceAll s t r => exact substitutes_replaceAll s t r h
  | splitJoin s t r => exact substitutes_splitJoin s t r h
  | splice first cuts tail template => exact substitutes_splice first cuts tail template h
  | expand template whole groups => exact (getSubstitution_expand whole h).symm
  | project template whole groups =>
    change byteLen _ < 2 ^ 64 at h
    change expandedLenFrom whole groups 0 template = _
    rw [expandedLenFrom_zero]
    omega

/-- `"abc".replace("b", "[$&$$]")`. -/
theorem substitutes_match : Substitutes (.replace ⟨encode "abc".toList, by decide⟩
    ⟨encode "b".toList, by decide⟩ ⟨encode "[$&$$]".toList, by decide⟩) := by
  refine substitutes _ ⟨paired_encode _, paired_encode _, fun _ => ⟨paired_encode _, ?_⟩⟩
  intro e he
  rw [decode_encode, show escapes "[$&$$]".toList = [('&', some '$'), ('$', some ']')] from rfl] at he
  change if encode "b".toList = [] then Verbatim e else Refers 0 e
  rw [if_neg (by decide)]
  intro hdigit
  have hnone : ∀ e ∈ [('&', some '$'), ('$', some ']')], ¬ e.1.isDigit = true := by decide
  exact absurd hdigit (hnone e he)

/-- `"ab".replaceAll("", "x")` is `"xab"`. -/
theorem not_substitutes_empty : ¬ Substitutes (.replaceAll ⟨encode "ab".toList, by decide⟩
    ⟨[], by decide⟩ ⟨encode "x".toList, by decide⟩) := by
  intro h
  change stringReplaceAll (encode "ab".toList) [] (encode "x".toList) =
    getSubstitution [] [] 0 (encode "x".toList) ++
      (encode "ab".toList).flatMap fun u => u :: getSubstitution [] [] 0 (encode "x".toList) at h
  revert h
  decide

end V12.StringMethods
