/-
V12.Engine.Substitution — `get_substitution` of `v12-engine/src/builtins/regexp.rs`,
with the slices that panic.

One walk over the template serves the code and GetSubstitution: they differ in
what a `$` and the characters behind it stand for. The match position counts
code units and is used as a byte offset.
-/
import V12.Engine.StringRegExp

namespace V12.Engine.Substitution

open Lib.Utf16

/-! ## §1 Templates -/

/-- A piece for each round over a template: of a character, or of a `$` with the characters behind
it that are part of the reference. The first argument counts those still to be passed over. -/
def walk {α : Type} (char : Char → α) (reference : Text → Option (α × Nat)) : Nat → Text → List α
  | _, [] => []
  | skip + 1, _ :: rest => walk char reference skip rest
  | 0, c :: rest =>
    if c = '$' then
      match reference rest with
      | some (piece, n) => piece :: walk char reference n rest
      | none => char '$' :: walk char reference 0 rest
    else char c :: walk char reference 0 rest

def twoDigits (c : Char) : Text → Option Nat
  | d :: _ => if d.isDigit then some ((c.toNat - '0'.toNat) * 10 + (d.toNat - '0'.toNat)) else none
  | [] => none

/-- The arguments but for the template. -/
structure Matched where
  matched : Text
  captures : List (Option Text)
  position : Nat
  input : Text

namespace Matched

variable (m : Matched)

def HasGroup (n : Nat) : Prop := 1 ≤ n ∧ n ≤ m.captures.length

instance (n : Nat) : Decidable (m.HasGroup n) := inferInstanceAs (Decidable (_ ∧ _))

def captureText (n : Nat) : Text := getSubstitution.captureText m.captures n

end Matched

/-! ## §2 The code -/

/-- The text in two at a byte offset; `none` is a panic: the offset lies in a character. -/
def splitBytes : Text → Nat → Option (Text × Text)
  | t, 0 => some ([], t)
  | [], _ + 1 => none
  | c :: t, n + 1 =>
    if c.utf8Size ≤ n + 1 then
      (splitBytes t (n + 1 - c.utf8Size)).map fun (before, behind) => (c :: before, behind)
    else none

/-- `input[..k.min(input.len())]` and `input[k.min(input.len())..]`. -/
def cut (input : Text) (k : Nat) : Option (Text × Text) := splitBytes input (min k (byteLen input))

/-- What a digit stands for, and how many characters it takes: two, if their number is one of a
capture. -/
def digitsPushed (m : Matched) (c : Char) (rest : Text) : Text × Nat :=
  match (twoDigits c rest).filter fun two => m.HasGroup two with
  | some two => (m.captureText two, 2)
  | none => (m.captureText (c.toNat - '0'.toNat), 1)

/-- What `get_substitution` pushes for a `$` and the text behind it, and how many characters of
that it takes. -/
def reference (m : Matched) : Text → Option (Option Text × Nat)
  | [] => none
  | c :: rest =>
    if c = '$' then some (some ['$'], 1)
    else if c = '&' then some (some m.matched, 1)
    else if c = '\x60' then some ((cut m.input m.position).map (·.1), 1)
    else if c = '\x27' then some ((cut m.input (m.position + byteLen m.matched)).map (·.2), 1)
    else if c.isDigit then
      some (some (digitsPushed m c rest).1, (digitsPushed m c rest).2)
    else none

def pushed (m : Matched) (template : Text) : List (Option Text) :=
  walk (fun c => some [c]) (reference m) 0 template

/-- `get_substitution`. -/
def getSubstitution (m : Matched) (template : Text) : Option Text :=
  ((pushed m template).mapM id).map List.flatten

/-! ## §3 GetSubstitution -/

def numbered (m : Matched) (n : Nat) (ref : Text) : Units :=
  if m.HasGroup n then encode (m.captureText n) else encode ref

/-- A number of two digits that is past the captures is one of one digit. -/
def digitsReplacement (m : Matched) (c : Char) (rest : Text) : Units × Nat :=
  match (twoDigits c rest).filter fun two => two ≤ m.captures.length with
  | some two => (numbered m two ('$' :: c :: rest.take 1), 2)
  | none => (numbered m (c.toNat - '0'.toNat) ['$', c], 1)

/-- `refReplacement`. -/
def refReplacement (m : Matched) : Text → Option (Units × Nat)
  | [] => none
  | c :: rest =>
    if c = '$' then some (encode ['$'], 1)
    else if c = '&' then some (encode m.matched, 1)
    else if c = '\x60' then some ((encode m.input).take m.position, 1)
    else if c = '\x27' then some ((encode m.input).drop (m.position + unitLen m.matched), 1)
    else if c.isDigit then some (digitsReplacement m c rest)
    else none

def replacements (m : Matched) (template : Text) : List Units :=
  walk (fun c => encode [c]) (refReplacement m) 0 template

/-- No slice panics, every reference is expanded to its replacement, and so is the template. -/
structure SubstitutionHeld (m : Matched) (template : Text) : Prop where
  references : (pushed m template).map (Option.map encode) = (replacements m template).map some
  expands : (getSubstitution m template).map encode = some (replacements m template).flatten

/-- The byte offset is one between two characters, and has the code units before it. -/
def CutsAt (input : Text) (bytes units : Nat) : Prop :=
  ∃ p ∈ cut input bytes, unitLen p.1 = min units (unitLen input)

def Numbers (m : Matched) (c : Char) (rest : Text) : Prop :=
  m.HasGroup (c.toNat - '0'.toNat) ∨ ∃ two ∈ twoDigits c rest, m.HasGroup two

/-- What has to hold of the text behind a `$`. -/
def Fits (m : Matched) : Text → Prop
  | [] => True
  | c :: rest =>
    if c = '\x60' then CutsAt m.input m.position m.position
    else if c = '\x27' then
      CutsAt m.input (m.position + byteLen m.matched) (m.position + unitLen m.matched)
    else if c.isDigit then Numbers m c rest
    else True

/-- What is behind each `$` that is read as one; nothing, for the other rounds. -/
def dollars (m : Matched) (template : Text) : List Text :=
  walk (fun _ => []) (fun rest => (reference m rest).map fun r => (rest, r.2)) 0 template

/-! ## §4 Slices -/

theorem splitBytes_eq {t before behind : Text} {n : Nat}
    (h : splitBytes t n = some (before, behind)) : t = before ++ behind := by
  fun_induction splitBytes t n generalizing before with
  | case1 t =>
    cases h
    rfl
  | case2 => cases h
  | case3 c t n hsize ih =>
    obtain ⟨⟨rest, tail⟩, hrest, heq⟩ := Option.map_eq_some_iff.mp h
    cases heq
    rw [ih hrest, List.cons_append]
  | case4 => cases h

section Cuts

variable {input before behind : Text} {n : Nat}

theorem take_iff (h : input = before ++ behind) :
    encode before = (encode input).take n ↔ unitLen before = min n (unitLen input) := by
  constructor
  · intro heq
    rw [unitLen, heq, List.length_take, unitLen]
  · intro hlen
    rw [h, encode_append]
    rw [h, unitLen_append] at hlen
    unfold unitLen at hlen
    rw [List.take_append]
    rcases Nat.le_total n (encode before).length with hn | hn
    · have heq : n = (encode before).length := by omega
      simp [heq]
    · have hnil : (encode behind).length = 0 ∨ n = (encode before).length := by omega
      rcases hnil with hnil | heq
      · rw [List.take_of_length_le hn, List.eq_nil_of_length_eq_zero hnil]
        simp
      · simp [heq]

theorem drop_iff (h : input = before ++ behind) :
    encode behind = (encode input).drop n ↔ unitLen before = min n (unitLen input) := by
  have hsplit : encode before ++ encode behind = (encode input).take n ++ (encode input).drop n := by
    rw [List.take_append_drop, h, encode_append]
  rw [← take_iff h]
  constructor
  · intro heq
    rw [heq] at hsplit
    exact List.append_cancel_right hsplit
  · intro heq
    rw [heq] at hsplit
    exact List.append_cancel_left hsplit

end Cuts

theorem cut_before_iff (input : Text) (bytes n : Nat) :
    ((cut input bytes).map (·.1)).map encode = some ((encode input).take n) ↔
      CutsAt input bytes n := by
  unfold CutsAt
  cases hcut : cut input bytes with
  | none => simp
  | some p => simp [take_iff (splitBytes_eq hcut)]

theorem cut_behind_iff (input : Text) (bytes n : Nat) :
    ((cut input bytes).map (·.2)).map encode = some ((encode input).drop n) ↔
      CutsAt input bytes n := by
  unfold CutsAt
  cases hcut : cut input bytes with
  | none => simp
  | some p => simp [drop_iff (splitBytes_eq hcut)]

/-! ## §5 References -/

variable {m : Matched} {c : Char} {n : Nat} {rest : Text}

theorem captureText_of_not (h : ¬ m.HasGroup n) : m.captureText n = [] := by
  unfold Matched.captureText getSubstitution.captureText
  unfold Matched.HasGroup at h
  split
  · rfl
  · rw [List.getElem?_eq_none (by omega)]
    rfl

theorem numbered_iff {ref : Text} :
    encode (m.captureText n) = numbered m n (c :: ref) ↔ m.HasGroup n := by
  unfold numbered
  split
  case isTrue h => exact iff_of_true rfl h
  case isFalse h =>
    refine iff_of_false (fun heq => ?_) h
    have hlen := congrArg List.length heq
    have hpos := length_encodeChar_pos c
    rw [captureText_of_not h, encode_cons, List.length_append, encode_nil, List.length_nil] at hlen
    omega

theorem digits_iff :
    (encode (digitsPushed m c rest).1 = (digitsReplacement m c rest).1 ↔ Numbers m c rest) ∧
      (Numbers m c rest → (digitsPushed m c rest).2 = (digitsReplacement m c rest).2) := by
  unfold digitsPushed digitsReplacement Numbers
  cases htwo : twoDigits c rest with
  | none => simp [numbered_iff]
  | some two =>
    by_cases hgroup : m.HasGroup two
    · simp [Option.filter, hgroup, hgroup.2, numbered]
    · by_cases hle : two ≤ m.captures.length
      · -- both digits are zero
        have hzero : ¬ m.HasGroup (c.toNat - 48) := by
          unfold Matched.HasGroup at hgroup ⊢
          cases rest with
          | nil => cases htwo
          | cons d rest =>
            obtain ⟨-, heq⟩ := Option.ite_none_right_eq_some.mp htwo
            have hsum : (c.toNat - 48) * 10 + (d.toNat - 48) = two := Option.some.inj heq
            omega
        have hne : encode (m.captureText (c.toNat - 48)) ≠
            numbered m two ('$' :: c :: rest.take 1) := by
          rw [captureText_of_not hzero, ← captureText_of_not hgroup]
          exact mt numbered_iff.mp hgroup
        simp [Option.filter, hgroup, hle, hzero, hne]
      · simp [Option.filter, hgroup, hle, numbered_iff]

theorem reference_iff (m : Matched) (rest : Text) :
    (reference m rest = none ∧ refReplacement m rest = none ∧ Fits m rest) ∨
      ∃ p r, reference m rest = some p ∧ refReplacement m rest = some r ∧
        (p.1.map encode = some r.1 ↔ Fits m rest) ∧ (Fits m rest → p.2 = r.2) := by
  cases rest with
  | nil => exact .inl ⟨rfl, rfl, trivial⟩
  | cons c rest =>
    unfold reference refReplacement Fits
    by_cases hdollar : c = '$'
    · subst hdollar
      exact .inr ⟨_, _, rfl, rfl, iff_of_true rfl (by simp), fun _ => rfl⟩
    by_cases hand : c = '&'
    · subst hand
      exact .inr ⟨_, _, rfl, rfl, iff_of_true rfl (by simp), fun _ => rfl⟩
    simp only [hdollar, hand, if_false]
    by_cases hbefore : c = '\x60'
    · simp only [hbefore, if_true]
      exact .inr ⟨_, _, rfl, rfl, cut_before_iff _ _ _, fun _ => rfl⟩
    by_cases hbehind : c = '\x27'
    · simp only [hbehind, if_true]
      exact .inr ⟨_, _, rfl, rfl, cut_behind_iff _ _ _, fun _ => rfl⟩
    simp only [hbefore, hbehind, if_false]
    by_cases hdigit : c.isDigit = true
    · simp only [hdigit, if_true]
      exact .inr ⟨_, _, rfl, rfl, Option.some_inj.trans digits_iff.1, digits_iff.2⟩
    · simp only [hdigit]
      exact .inl ⟨rfl, rfl, trivial⟩

theorem walk_iff (skip : Nat) (template : Text) :
    (walk (fun c => some [c]) (reference m) skip template).map (Option.map encode) =
        (walk (fun c => encode [c]) (refReplacement m) skip template).map some ↔
      ∀ rest ∈ walk (fun _ => []) (fun rest => (reference m rest).map fun r => (rest, r.2)) skip
        template, Fits m rest := by
  induction template generalizing skip with
  | nil => simp [walk]
  | cons c rest ih =>
    cases skip with
    | succ skip => exact ih skip
    | zero =>
      simp only [walk]
      by_cases hc : c = '$'
      · rw [if_pos hc, if_pos hc, if_pos hc]
        rcases reference_iff m rest with ⟨hcode, hes, hfits⟩ | ⟨p, r, hcode, hes, hpiece, hskip⟩
        · simp only [hcode, hes, Option.map_none, List.map_cons, List.cons.injEq,
            List.forall_mem_cons, ih]
          exact and_congr (iff_of_true rfl trivial) Iff.rfl
        · simp only [hcode, hes, Option.map_some, List.map_cons, List.cons.injEq,
            List.forall_mem_cons, hpiece]
          refine and_congr_right fun hfits => ?_
          rw [← hskip hfits, ih]
      · rw [if_neg hc, if_neg hc, if_neg hc]
        simp only [List.map_cons, List.cons.injEq, List.forall_mem_cons, ih]
        exact and_congr (iff_of_true rfl trivial) Iff.rfl

/-! ## §6 The whole template -/

theorem mapM_of_pieces {pieces : List (Option Text)} {texts : List Units}
    (h : pieces.map (Option.map encode) = texts.map some) :
    ((pieces.mapM id).map List.flatten).map encode = some texts.flatten := by
  induction pieces generalizing texts with
  | nil =>
    cases texts with
    | nil => rfl
    | cons t ts => cases h
  | cons piece pieces ih =>
    cases texts with
    | nil => cases h
    | cons t ts =>
      obtain ⟨hpiece, hrest⟩ := List.cons.inj h
      obtain ⟨x, rfl, rfl⟩ := Option.map_eq_some_iff.mp hpiece
      have hflat := ih hrest
      rw [Option.map_map, Option.map_eq_some_iff] at hflat
      obtain ⟨xs, hxs, heq⟩ := hflat
      have hmap : (some x :: pieces).mapM id = some (x :: xs) := by
        rw [List.mapM_cons, hxs]
        rfl
      rw [hmap, Option.map_some, Option.map_some, List.flatten_cons, List.flatten_cons,
        encode_append, ← heq]
      rfl

/-- **`get_substitution` is GetSubstitution exactly** where each reference of the template fits: the
match position cuts the subject as a byte offset where it does as an offset of code units, and a
number is one of a capture. -/
theorem substitution_exactly (m : Matched) (template : Text) :
    SubstitutionHeld m template ↔ ∀ rest ∈ dollars m template, Fits m rest := by
  unfold dollars
  rw [← walk_iff]
  exact ⟨fun h => h.references, fun h => ⟨h, mapM_of_pieces h⟩⟩

/-- The text before a match behind `é` panics. -/
theorem not_substitutionHeld : ¬ ∀ m template, SubstitutionHeld m template := by
  intro h
  have hexpands := (h ⟨['a'], [], 1, ['é', 'a']⟩ ['$', '\x60']).expands
  have hpanic : getSubstitution ⟨['a'], [], 1, ['é', 'a']⟩ ['$', '\x60'] = none := by decide
  rw [hpanic] at hexpands
  cases hexpands

end V12.Engine.Substitution
