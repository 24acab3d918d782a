/-
V12.Engine.JsonStringify — the writer of `v12-engine/src/builtins/json.rs`
(`quote_units`, `write_value`, `write_array`, `write_object`), and its text read by
`JSON.parse`.

A quotation is a string of the grammar, whose pieces are the arms that were
taken; lone surrogates are written as escapes, which the parser refuses. What is
written of a tree of data spells its document, with any gap of white space. An
object whose only enumerable key is `rawJSON`, with a string, is no such tree:
its string is spliced in as it stands (`rawJsonOf`).
-/
import V12.Engine.JsonAgreement
import V12.Engine.NumberRoundTrip
import V12.Lib.Surrogates

namespace V12.Json

open Lib.Binary64 Lib.JsonText
open Lib.Utf16 hiding Paired
open V12.Interp (ShortestDigits NegativeZero isDigit digitsValue digitValue)

variable {u : BitVec 16} {us : Units} {c : Char}

/-! ## §1 The function -/

/-- A digit of the format `x`. -/
def hexLower (n : Nat) : Char := if n < 10 then Char.ofNat (48 + n) else Char.ofNat (87 + n)

/-- The format `04x`. -/
def hexFour (u : Nat) : List Char :=
  [hexLower (u / 4096), hexLower (u / 256 % 16), hexLower (u / 16 % 16), hexLower (u % 16)]

def shortText (u : Nat) : Option Char :=
  match u with
  | 0x08 => some 'b'
  | 0x09 => some 't'
  | 0x0A => some 'n'
  | 0x0C => some 'f'
  | 0x0D => some 'r'
  | 0x22 => some '"'
  | 0x5C => some '\\'
  | _ => none

/-- The arms of `quote_units`, but for a high half that has its low half next. -/
def quoteUnit (u : BitVec 16) : List Char :=
  match shortText u.toNat with
  | some c => ['\\', c]
  | none =>
    if u.toNat < 0x20 ∨ IsHigh u ∨ IsLow u then '\\' :: 'u' :: hexFour u.toNat
    else (fromU32 u.toNat).toList

/-- The loop of `quote_units`. -/
def quoteLoop : Units → List Char
  | [] => []
  | [u] => quoteUnit u
  | u :: lo :: rest =>
    if IsHigh u ∧ IsLow lo then (fromU32 (joinPair u.toNat lo.toNat)).toList ++ quoteLoop rest
    else quoteUnit u ++ quoteLoop (lo :: rest)

/-- `QuoteJSONString`. -/
def quoteUnits (us : Units) : List Char := '"' :: (quoteLoop us ++ ['"'])

/-- `newline_indent`. -/
def newlineIndent (gap : List Char) (depth : Nat) : List Char :=
  if gap = [] then [] else '\n' :: (List.replicate depth gap).flatten

/-- `raw_json_of`: the only own enumerable key is `rawJSON`, and its value a string. -/
def rawJsonOf : Props → Option (List Char)
  | [(name, .string text)] =>
    if decode name = "rawJSON".toList then some (decode text) else none
  | _ => none

mutual

/-- `write_value`, on data: the properties of an object are its entries in the order in which
`enumerable_own_keys` lists them. -/
def writeValue (host : ShortestDigits) (gap : List Char) : Value → Nat → List Char
  | .null, _ => "null".toList
  | .bool b, _ => boolText b
  | .number n, _ => if IsFinite n then Engine.numberToString host n else "null".toList
  | .string us, _ => quoteUnits us
  | .array items, depth =>
    if items.isEmpty then "[]".toList
    else '[' :: (writeItems host gap items depth ++ (newlineIndent gap depth ++ [']']))
  | .object props, depth =>
    match rawJsonOf props with
    | some serialized => serialized
    | none =>
      if props.isEmpty then "\x7b\x7d".toList
      else '\x7b' :: (writeMembers host gap props depth ++ (newlineIndent gap depth ++ ['\x7d']))

/-- The loop of `write_array`. -/
def writeItems (host : ShortestDigits) (gap : List Char) : List Value → Nat → List Char
  | [], _ => []
  | v :: vs, depth =>
    newlineIndent gap (depth + 1) ++ (writeValue host gap v (depth + 1) ++
      if vs.isEmpty then [] else ',' :: writeItems host gap vs depth)

/-- The loop of `write_object`. -/
def writeMembers (host : ShortestDigits) (gap : List Char) : Props → Nat → List Char
  | [], _ => []
  | (key, v) :: props, depth =>
    newlineIndent gap (depth + 1) ++ (quoteUnits key ++ (':' :: ((if gap = [] then [] else [' ']) ++
      (writeValue host gap v (depth + 1) ++
        if props.isEmpty then [] else ',' :: writeMembers host gap props depth))))

end

/-! ## §2 The pieces of a quotation -/

theorem quoteLoop_cons (h : ¬ (IsHigh u ∧ LowHead us)) :
    quoteLoop (u :: us) = quoteUnit u ++ quoteLoop us := by
  cases us with
  | nil => exact (List.append_nil _).symm
  | cons lo us =>
    rw [quoteLoop, if_neg]
    rintro ⟨hu, hlo⟩
    exact h ⟨hu, lo, rfl, hlo⟩

theorem encode_ascii {t : List Char} (h : ∀ c ∈ t, c.toNat < 128) : encode t = units t := by
  induction t with
  | nil => rfl
  | cons c t ih =>
    have hsmall : c.toNat < 0x10000 := Nat.lt_trans (h c List.mem_cons_self) (by decide)
    rw [encode_cons, encodeChar, if_pos hsmall, ih fun a ha => h a (List.mem_cons_of_mem c ha)]
    rfl

theorem hexEscape_hexFour {n : Nat} (hn : n < 65536) : HexEscape (hexFour n) n := by
  have hdigit : ∀ d < 16, isDigit 16 (hexLower d) = true ∧ digitValue 16 (hexLower d) = d := by
    decide
  have hvalue : digitsValue 16 (hexFour n) = n := by
    simp only [digitsValue, hexFour, List.foldl_cons, List.foldl_nil,
      (hdigit (n / 4096) (by omega)).2, (hdigit (n / 256 % 16) (by omega)).2,
      (hdigit (n / 16 % 16) (by omega)).2, (hdigit (n % 16) (by omega)).2]
    omega
  have hall : ∀ c ∈ hexFour n, isDigit 16 c = true := by
    intro c hc
    simp only [hexFour, List.mem_cons, List.not_mem_nil, or_false] at hc
    rcases hc with rfl | rfl | rfl | rfl <;> exact (hdigit _ (by omega)).1
  have hescape := HexEscape.digits rfl hall
  rwa [hvalue] at hescape

theorem exists_shortEscape_of_shortText (h : shortText u.toNat = some c) :
    ∃ d, ShortEscape c d ∧ unit d = u := by
  have heq : ∀ {d : Char}, u.toNat = (unit d).toNat → unit d = u :=
    fun h => BitVec.eq_of_toNat_eq h.symm
  unfold shortText at h
  split at h
  case h_8 => cases h
  all_goals
    obtain rfl := Option.some.inj h
    rename_i hu
  · exact ⟨_, .backspace, heq hu⟩
  · exact ⟨_, .tab, heq hu⟩
  · exact ⟨_, .lineFeed, heq hu⟩
  · exact ⟨_, .formFeed, heq hu⟩
  · exact ⟨_, .carriageReturn, heq hu⟩
  · exact ⟨_, .quote, heq hu⟩
  · exact ⟨_, .backslash, heq hu⟩

theorem plain_of_shortText (hshort : shortText u.toNat = none) (h : 0x20 ≤ u.toNat) : Plain u where
  no_control := h
  no_quote := by
    rintro rfl
    cases hshort
  no_backslash := by
    rintro rfl
    cases hshort

theorem exists_piece (u : BitVec 16) :
    ∃ p : Piece, encode (quoteUnit u) = p.units ∧ p.code = u ∧ p.Standard := by
  unfold quoteUnit
  cases hshort : shortText u.toNat with
  | some c =>
    obtain ⟨d, hescape, hd⟩ := exists_shortEscape_of_shortText hshort
    refine ⟨.short c d hescape, encode_ascii fun a ha => ?_, hd, trivial⟩
    rcases List.mem_cons.mp ha with rfl | ha
    · decide
    · rw [List.mem_singleton.mp ha]
      exact hescape.read.2.2.1
  | none =>
    dsimp only
    split
    case isTrue =>
      have hescape := hexEscape_hexFour u.isLt
      refine ⟨.hex _ _ hescape, encode_ascii fun a ha => ?_, BitVec.ofNat_toNat _ _, ?_⟩
      · rcases List.mem_cons.mp ha with rfl | ha
        · decide
        rcases List.mem_cons.mp ha with rfl | ha
        · decide
        · exact hescape.ascii.1 a ha
      · have hplus : ∀ d < 16, hexLower d ≠ '+' := by decide
        exact fun h => hplus (u.toNat / 4096) (by omega) (Option.some.inj h)
    case isFalse h =>
      rw [not_or, Nat.not_lt] at h
      refine ⟨.raw u (plain_of_shortText hshort h.1), ?_, rfl, trivial⟩
      have hvalid : u.toNat.isValidChar := by
        have hlt := u.isLt
        have hhigh : ¬ (0xD800 ≤ u.toNat ∧ u.toNat < 0xDC00) := fun hu => h.2 (.inl hu)
        have hlow : ¬ (0xDC00 ≤ u.toNat ∧ u.toNat < 0xE000) := fun hu => h.2 (.inr hu)
        unfold Nat.isValidChar
        omega
      have hchar : Char.ofNat u.toNat = unitChar u := (if_neg h.2).symm
      rw [fromU32_of_valid hvalid, hchar]
      change encodeChar (unitChar u) ++ [] = [u]
      rw [encode_unitChar, mark, if_neg h.2]
      rfl

theorem plain_of_surrogate (h : IsHigh u ∨ IsLow u) : Plain u := by
  have hle : 0xD800 ≤ u.toNat := h.elim (fun h => h.1) fun h => Nat.le_trans (by decide) h.1
  refine ⟨Nat.le_trans (by decide) hle, ?_, ?_⟩
  · rintro rfl
    exact absurd hle (by decide)
  · rintro rfl
    exact absurd hle (by decide)

theorem encode_pair {lo : BitVec 16} (hu : IsHigh u) (hlo : IsLow lo) :
    encode (fromU32 (joinPair u.toNat lo.toNat)).toList = [u, lo] := by
  have hvalid : (joinPair u.toNat lo.toNat).isValidChar := by
    have hhigh := hu.2
    have hlow := hlo.2
    unfold joinPair Nat.isValidChar
    omega
  rw [fromU32_of_valid hvalid]
  exact (congrArg encode (decode_pair_cons hu hlo [])).symm.trans (lossy_pair hu hlo [])

/-- **A quotation is a string of the grammar** for its units, and its escapes are paired if the
surrogates are. -/
theorem exists_pieces (us : Units) :
    ∃ ps, encode (quoteLoop us) = ps.flatMap Piece.units ∧ codes ps = us ∧
      (∀ p ∈ ps, p.Standard) ∧ (Lib.Utf16.Paired us → EscapesPaired ps) := by
  induction us using decode_induction with
  | hnil => exact ⟨[], rfl, rfl, by simp, fun _ => trivial⟩
  | hcons u us h ih =>
    obtain ⟨ps, hunits, hcodes, hstandard, hpaired⟩ := ih
    obtain ⟨p, hp, hcode, hone⟩ := exists_piece u
    refine ⟨p :: ps, ?_, ?_, List.forall_mem_cons.mpr ⟨hone, hstandard⟩, fun hus => ?_⟩
    · rw [quoteLoop_cons h, encode_append, hp, hunits]
      rfl
    · rw [← hcode, ← hcodes]
      rfl
    · have hnot : ¬ (IsHigh u ∨ IsLow u) := fun hu => hus 0 ((unpaired_head h).mpr hu)
      have hrest : Lib.Utf16.Paired us := fun i hi => hus (i + 1) ((unpaired_cons h i).mpr hi)
      rw [escapesPaired_cons, hcode, if_neg fun hu => hnot (.inl hu.2)]
      exact ⟨fun hu => hnot (.inr hu.2), hpaired hrest⟩
  | hpair u lo us hu hlo ih =>
    obtain ⟨ps, hunits, hcodes, hstandard, hpaired⟩ := ih
    refine ⟨.raw u (plain_of_surrogate (.inl hu)) :: .raw lo (plain_of_surrogate (.inr hlo)) :: ps,
      ?_, ?_, ?_, fun hus => ?_⟩
    · rw [quoteLoop, if_pos ⟨hu, hlo⟩, encode_append, encode_pair hu hlo, hunits]
      rfl
    · rw [← hcodes]
      rfl
    · exact List.forall_mem_cons.mpr ⟨trivial, List.forall_mem_cons.mpr ⟨trivial, hstandard⟩⟩
    · rw [escapesPaired_of_not_hex rfl, escapesPaired_of_not_hex rfl]
      exact hpaired fun i hi => hus (i + 2) ((unpaired_behind_pair hlo us i).mpr hi)

theorem encode_quoteUnits {ps : List Piece} (h : encode (quoteLoop us) = ps.flatMap Piece.units)
    (r : Units) : encode (quoteUnits us) ++ r = tokens.string ps ++ r := by
  rw [quoteUnits, encode_cons, encode_append, h]
  rfl

/-- **What is quoted is a JSON text** of ECMA-404 for the string, with any lone surrogates, and
`JSON.parse` reads it back exactly if there are none. -/
theorem quote_roundTrip (us : Units) :
    Denotes (encode (quoteUnits us)) (.string us) ∧
      (jsonParse (encode (quoteUnits us)) = .ok (.string us) ↔ Lib.Utf16.Paired us) := by
  obtain ⟨ps, hunits, hcodes, hstandard, hpaired⟩ := exists_pieces us
  have htext : IsText tokens (.string ps) (encode (quoteUnits us)) := by
    have hstring := encode_quoteUnits hunits []
    rw [List.append_nil] at hstring
    rw [hstring]
    exact .element (blank_refl _) .string (blank_refl _)
  refine ⟨⟨.string ps, htext, hstandard, congrArg Value.string hcodes⟩, ?_⟩
  rw [jsonParse_iff]
  constructor
  · rintro ⟨d, -, -, hd⟩
    cases d with
    | string qs =>
      rw [Value.string.inj hd]
      exact paired_lossy (codes qs)
    | null | bool | number | array | object => cases hd
  · intro hus
    refine ⟨.string ps, htext, hpaired hus, congrArg Value.string ?_⟩
    rw [strText, hcodes]
    exact (lossy_eq_self_iff.mpr hus).symm

/-! ## §3 Documents of values -/

section Documents

variable (host : ShortestDigits) {gap : List Char} {r : Units} {n : BitVec 64}

theorem exists_numeral_of_finite (hfin : IsFinite n) (hzero : ¬ NegativeZero n) :
    ∃ m : Numeral, m.text = Engine.numberToString host n ∧ m.value = n := by
  obtain ⟨d, t, k, e, htext, hd, hliteral, hvalue⟩ := NumberRoundTrip.exists_literal host hfin
  obtain ⟨hvalid, hparse⟩ := V12.Interp.valid_of_literal hliteral
  obtain ⟨m, hm⟩ := exists_numeral hd hvalid (negative n)
  refine ⟨m, by rw [hm, Engine.numberToString_eq host hzero, htext]; rfl, ?_⟩
  have hsplit : splitSign m.text = (negative n, d :: t) := by
    rw [hm]
    cases negative n with
    | false => exact splitSign_digit hd
    | true => rfl
  have hread := (parseFloat_text m).symm.trans (parseFloat_split hd hsplit)
  rw [if_pos hvalid, hparse, V12.Interp.signed_scaled, hvalue] at hread
  exact Option.some.inj hread

def BlankGap (gap : List Char) : Prop := ∀ u ∈ encode gap, isBlank u = true

theorem BlankGap.repeated (h : BlankGap gap) (depth : Nat) :
    ∀ u ∈ encode (List.replicate depth gap).flatten, isBlank u = true := by
  induction depth with
  | zero => exact fun u hu => absurd hu List.not_mem_nil
  | succ depth ih =>
    intro u hu
    rw [List.replicate_succ, List.flatten_cons, encode_append] at hu
    exact (List.mem_append.mp hu).elim (h u) (ih u)

theorem blank_newlineIndent (hgap : BlankGap gap) (depth : Nat) (r : Units) :
    Blank (encode (newlineIndent gap depth) ++ r) r := by
  refine ⟨_, fun u hu => ?_, rfl⟩
  unfold newlineIndent at hu
  split at hu
  · cases hu
  · rw [encode_cons] at hu
    rcases List.mem_append.mp hu with hu | hu
    · rw [List.mem_singleton.mp (show u ∈ [unit '\n'] from hu)]
      decide
    · exact hgap.repeated depth u hu

mutual

/-- What is read back from what is written: well-formed strings and keys, no key twice, no raw
text, and finite numbers other than the negative zero. -/
def Value.Plain : Value → Prop
  | .null | .bool _ => True
  | .number n => IsFinite n ∧ ¬ NegativeZero n
  | .string us => Lib.Utf16.Paired us
  | .array items => ItemsPlain items
  | .object props => (props.map Prod.fst).Nodup ∧ rawJsonOf props = none ∧ PropsPlain props

def ItemsPlain : List Value → Prop
  | [] => True
  | v :: items => v.Plain ∧ ItemsPlain items

def PropsPlain : Props → Prop
  | [] => True
  | (key, v) :: props => Lib.Utf16.Paired key ∧ v.Plain ∧ PropsPlain props

end

theorem defineJsonProp_new {props : Props} {key : Units} {v : Value}
    (h : key ∉ props.map Prod.fst) : defineJsonProp props key v = props ++ [(key, v)] := by
  induction props with
  | nil => rfl
  | cons p props ih =>
    rw [List.map_cons, List.mem_cons, not_or] at h
    rw [defineJsonProp, if_neg (Ne.symm h.1), ih h.2]
    rfl

def property (m : List Piece × Document) : Units × Value := (strText m.1, toValue strText m.2)

theorem toProps_eq {ms : List (List Piece × Document)} {props : Props}
    (h : ((props ++ ms.map property).map Prod.fst).Nodup) :
    toProps strText props ms = props ++ ms.map property := by
  induction ms generalizing props with
  | nil => exact (List.append_nil _).symm
  | cons m ms ih =>
    have hassoc : props ++ (m :: ms).map property = (props ++ [property m]) ++ ms.map property := by
      rw [List.append_assoc]
      rfl
    have hnew : (property m).1 ∉ props.map Prod.fst := by
      rw [List.map_append, List.map_cons, List.map_cons, List.nodup_append] at h
      exact fun hmem => h.2.2 _ hmem _ List.mem_cons_self rfl
    rw [hassoc] at h ⊢
    rw [← ih h, toProps]
    exact congrArg (toProps strText · ms) (defineJsonProp_new hnew)

theorem blank_colonGap (gap : List Char) (r : Units) :
    Blank (encode (if gap = [] then [] else [' ']) ++ r) r := by
  refine ⟨_, fun u hu => ?_, rfl⟩
  split at hu
  · cases hu
  · rw [List.mem_singleton.mp (show u ∈ [unit ' '] from hu)]
    decide

mutual

theorem exists_document (hgap : BlankGap gap) : ∀ (v : Value) (depth : Nat), v.Plain →
    ∃ d : Document, NoLoneEscape d ∧ toValue strText d = v ∧
      ∀ r, Spells tokens (.value d) (encode (writeValue host gap v depth) ++ r) r
  | .null, _, _ => ⟨.null, trivial, rfl, fun _ => .null⟩
  | .bool b, _, _ => ⟨.bool b, trivial, rfl, fun r => by
    have hsolid : (boolText b).all (fun c => decide (V12.Interp.Solid c)) = true := by
      cases b <;> decide
    rw [writeValue, encode_ascii (V12.Interp.ascii_of_solid (V12.Interp.solid_of_all hsolid))]
    exact .bool⟩
  | .number n, _, h => by
    obtain ⟨m, htext, hvalue⟩ := exists_numeral_of_finite host h.1 h.2
    refine ⟨.number m, trivial, congrArg Value.number hvalue, fun r => ?_⟩
    rw [writeValue, if_pos h.1, ← htext, encode_ascii m.ascii_text]
    exact .number
  | .string us, _, h => by
    obtain ⟨ps, hunits, hcodes, -, hpaired⟩ := exists_pieces us
    refine ⟨.string ps, hpaired h, congrArg Value.string ?_, fun r => ?_⟩
    · rw [strText, hcodes]
      exact lossy_eq_self_iff.mpr h
    · rw [writeValue, encode_quoteUnits hunits]
      exact .string
  | .array items, depth, h => by
    by_cases hnil : items = []
    · subst hnil
      exact ⟨.array [], trivial, rfl, fun r => .emptyArray (blank_refl _)⟩
    · obtain ⟨ds, hpaired, hvalues, hspells⟩ := exists_elements hgap items depth hnil h
      refine ⟨.array ds, hpaired, congrArg Value.array hvalues, fun r => ?_⟩
      have hunits : encode (writeValue host gap (.array items) depth) ++ r =
          unit '[' :: (encode (writeItems host gap items depth) ++
            (encode (newlineIndent gap depth) ++ unit ']' :: r)) := by
        rw [writeValue, if_neg (by simpa using hnil), encode_cons, encode_append, encode_append,
          List.append_assoc, List.append_assoc, List.append_assoc]
        rfl
      rw [hunits]
      exact .array (hspells _)
  | .object props, depth, h => by
    by_cases hnil : props = []
    · subst hnil
      exact ⟨.object [], trivial, rfl, fun r => .emptyObject (blank_refl _)⟩
    · obtain ⟨ms, hpaired, hprops, hspells⟩ := exists_members hgap props depth hnil h.2.2
      refine ⟨.object ms, hpaired, congrArg Value.object ?_, fun r => ?_⟩
      · have hdistinct : ((([] : Props) ++ ms.map property).map Prod.fst).Nodup := by
          rw [List.nil_append, hprops]
          exact h.1
        rw [toProps_eq hdistinct, List.nil_append, hprops]
      · have hunits : encode (writeValue host gap (.object props) depth) ++ r =
            unit '\x7b' :: (encode (writeMembers host gap props depth) ++
              (encode (newlineIndent gap depth) ++ unit '\x7d' :: r)) := by
          rw [writeValue, h.2.1]
          simp only
          rw [if_neg (by simpa using hnil), encode_cons, encode_append, encode_append,
            List.append_assoc, List.append_assoc, List.append_assoc]
          rfl
        rw [hunits]
        exact .object (hspells _)

theorem exists_elements (hgap : BlankGap gap) : ∀ (items : List Value) (depth : Nat),
    items ≠ [] → ItemsPlain items →
    ∃ ds : List Document, AllElements (fun _ => True) EscapesPaired ds ∧
      toValues strText ds = items ∧
      ∀ r, Spells tokens (.elements ds) (encode (writeItems host gap items depth) ++
        (encode (newlineIndent gap depth) ++ r)) r
  | [], _, hne, _ => absurd rfl hne
  | v :: vs, depth, _, h => by
    obtain ⟨d, hd, hvalue, hspells⟩ := exists_document hgap v (depth + 1) h.1
    by_cases hnil : vs = []
    · subst hnil
      refine ⟨[d], ⟨hd, trivial⟩, congrArg (· :: []) hvalue, fun r => ?_⟩
      rw [writeItems, List.isEmpty_nil, if_pos rfl, List.append_nil, encode_append,
        List.append_assoc]
      exact .lastElement (.element (blank_newlineIndent hgap _ _) (hspells _)
        (blank_newlineIndent hgap _ _))
    · obtain ⟨ds, hds, hvalues, hrest⟩ := exists_elements hgap vs depth hnil h.2
      refine ⟨d :: ds, ⟨hd, hds⟩, congrArg₂ List.cons hvalue hvalues, fun r => ?_⟩
      rw [writeItems, if_neg (by simpa using hnil), encode_append, encode_append,
        List.append_assoc, List.append_assoc]
      exact .moreElements (.element (blank_newlineIndent hgap _ _) (hspells _) (blank_refl _))
        (hrest r)

theorem exists_members (hgap : BlankGap gap) : ∀ (props : Props) (depth : Nat),
    props ≠ [] → PropsPlain props →
    ∃ ms : List (List Piece × Document), AllMembers (fun _ => True) EscapesPaired ms ∧
      ms.map property = props ∧
      ∀ r, Spells tokens (.members ms) (encode (writeMembers host gap props depth) ++
        (encode (newlineIndent gap depth) ++ r)) r
  | [], _, hne, _ => absurd rfl hne
  | (key, v) :: props, depth, _, h => by
    obtain ⟨ps, hunits, hcodes, -, hpaired⟩ := exists_pieces key
    obtain ⟨d, hd, hvalue, hspells⟩ := exists_document hgap v (depth + 1) h.2.1
    have hproperty : property (ps, d) = (key, v) := by
      rw [property, hvalue, strText, hcodes]
      exact congrArg (·, v) (lossy_eq_self_iff.mpr h.1)
    have hmember : ∀ {us r}, Blank us r → Spells tokens (.member ps d)
        (encode (newlineIndent gap (depth + 1)) ++ (encode (quoteUnits key) ++ (unit ':' ::
          (encode (if gap = [] then [] else [' ']) ++
            (encode (writeValue host gap v (depth + 1)) ++ us))))) r := by
      intro us r hr
      rw [encode_quoteUnits hunits]
      exact .member (blank_newlineIndent hgap _ _) (blank_refl _)
        (.element (blank_colonGap gap _) (hspells _) hr)
    by_cases hnil : props = []
    · subst hnil
      refine ⟨[(ps, d)], ⟨hpaired h.1, hd, trivial⟩, congrArg (· :: []) hproperty, fun r => ?_⟩
      have htext := hmember (blank_newlineIndent hgap depth r)
      rw [writeMembers, List.isEmpty_nil, if_pos rfl, List.append_nil]
      simp only [encode_append, encode_cons, List.append_assoc]
      exact .lastMember htext
    · obtain ⟨ms, hms, hprops, hrest⟩ := exists_members hgap props depth hnil h.2.2
      refine ⟨(ps, d) :: ms, ⟨hpaired h.1, hd, hms⟩, congrArg₂ List.cons hproperty hprops,
        fun r => ?_⟩
      have htext := hmember (blank_refl (unit ',' :: (encode (writeMembers host gap props depth) ++
        (encode (newlineIndent gap depth) ++ r))))
      have htail : (if props.isEmpty then [] else ',' :: writeMembers host gap props depth) =
          ',' :: writeMembers host gap props depth := if_neg (by simpa using hnil)
      rw [writeMembers, htail]
      simp only [encode_append, encode_cons, List.append_assoc]
      exact .moreMembers htext (hrest r)

end

/-- **The round trip**: what `JSON.stringify` writes of plain data, with any gap of white space,
`JSON.parse` reads as the data. -/
theorem stringify_roundTrip (hgap : BlankGap gap) {v : Value} (hv : v.Plain) :
    jsonParse (encode (writeValue host gap v 0)) = .ok v := by
  obtain ⟨d, hd, hvalue, hspells⟩ := exists_document host hgap v 0 hv
  have htext := hspells []
  rw [List.append_nil] at htext
  exact jsonParse_iff.mpr ⟨d, .element (blank_refl _) htext (blank_refl _), hd, hvalue.symm⟩

def sampleData : Value :=
  .object [([0x61], .array [.null, .bool true, .number 0#64, .string [0x22]])]

theorem plain_sampleData : sampleData.Plain := by
  have hkey : Lib.Utf16.Paired [0x61] := lossy_eq_self_iff.mp (by decide)
  have hstring : Lib.Utf16.Paired [0x22] := lossy_eq_self_iff.mp (by decide)
  have hnumber : IsFinite 0#64 ∧ ¬ NegativeZero 0#64 := ⟨by decide, fun h => absurd h.2 (by decide)⟩
  simp only [sampleData, Value.Plain, ItemsPlain, PropsPlain]
  exact ⟨by simp, rfl, hkey, ⟨trivial, trivial, hnumber, hstring, trivial⟩, trivial⟩

theorem blankGap_twoSpaces : BlankGap [' ', ' '] := by
  intro u hu
  have hspace : u = unit ' ' := by simpa using (show u ∈ [unit ' ', unit ' '] from hu)
  rw [hspace]
  decide

theorem stringify_roundTrip_indented : ∃ host,
    jsonParse (encode (writeValue host [' ', ' '] sampleData 0)) = .ok sampleData := by
  obtain ⟨host⟩ := V12.Interp.nonempty_shortestDigits
  exact ⟨host, stringify_roundTrip host blankGap_twoSpaces plain_sampleData⟩

end Documents

end V12.Json
