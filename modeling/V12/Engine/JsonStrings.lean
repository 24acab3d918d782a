/-
V12.Engine.JsonStrings — how the parser reads strings.

A string is read to its closing quote, with its pairs of surrogates joined,
whether they stand for themselves or are escaped (`string_wire`), and nothing
else is read as one (`exists_string`). An escaped surrogate without its partner
stops the parser.
-/
import V12.Engine.JsonTokens

namespace V12.Json

open Lib.JsonText (Units Doc Tokens IsText unit units Blank isBlank isCloser Next Follow)
open Lib.Utf8 Lib.Utf16
open V12.Interp (isDigit digitsValue Digits Ascii)

variable {c : Char} {ds : List Char} {v v' : Nat} {us : Units}

/-! ## §1 Escapes -/

theorem ShortEscape.read {esc : Char} (h : ShortEscape esc c) :
    escapeChar (byte esc) = some c ∧ byte esc ≠ byte 'u' ∧ esc.toNat < 128 ∧ c.toNat < 128 := by
  cases h <;> exact ⟨rfl, by decide, by decide, by decide⟩

theorem exists_shortEscape {b : Nat} (h : escapeChar b = some c) :
    ∃ esc, byte esc = b ∧ ShortEscape esc c := by
  obtain ⟨e, hfind, rfl⟩ := Option.map_eq_some_iff.mp h
  have hmem := List.mem_of_find?_eq_some hfind
  have hb : byte e.1 = b := by simpa using List.find?_some hfind
  refine ⟨e.1, hb, ?_⟩
  simp only [escapes, List.mem_cons, List.not_mem_nil, or_false] at hmem
  rcases hmem with rfl | rfl | rfl | rfl | rfl | rfl | rfl | rfl
  · exact .quote
  · exact .backslash
  · exact .slash
  · exact .backspace
  · exact .formFeed
  · exact .lineFeed
  · exact .carriageReturn
  · exact .tab

theorem hex_ascii (h : ∀ c ∈ ds, isDigit 16 c = true) : Ascii ds :=
  V12.Interp.ascii_of_solid fun c hc => V12.Interp.solid_of_isDigit (h c hc)

theorem HexEscape.ascii (h : HexEscape ds v) :
    Ascii ds ∧ ds.length = 4 ∧ v < 65536 := by
  cases h with
  | digits hlength hds =>
    have hlt : digitsValue 16 ds < 16 ^ ds.length := V12.Interp.digitsValue_lt (by decide) ds
    rw [hlength] at hlt
    exact ⟨hex_ascii hds, hlength, hlt⟩
  | plus hlength hds =>
    rename_i ds
    have hlt : digitsValue 16 ds < 16 ^ ds.length := V12.Interp.digitsValue_lt (by decide) ds
    rw [hlength] at hlt
    refine ⟨fun c hc => ?_, by rw [List.length_cons, hlength], by omega⟩
    rcases List.mem_cons.mp hc with rfl | hc
    · decide
    · exact hex_ascii hds c hc

theorem fromStrRadix16_eq_some {s : List Char} : fromStrRadix16 s = some v ↔
    dropPlus s ≠ [] ∧ (∀ c ∈ dropPlus s, isDigit 16 c = true) ∧ digitsValue 16 (dropPlus s) < 65536 ∧
      digitsValue 16 (dropPlus s) = v := by
  unfold fromStrRadix16
  dsimp only
  generalize dropPlus s = ds
  by_cases hall : ds = [] ∨ ds.all (isDigit 16) = false
  · rw [if_pos hall]
    constructor
    · intro h
      cases h
    · rintro ⟨hne, hds, -⟩
      rw [List.all_eq_true.mpr hds] at hall
      rcases hall with hnil | hfalse
      · exact absurd hnil hne
      · cases hfalse
  · rw [if_neg hall]
    rw [not_or, Bool.not_eq_false, List.all_eq_true] at hall
    rw [Option.filter_eq_some_iff, Option.some.injEq, decide_eq_true_eq]
    constructor
    · rintro ⟨hv, hlt⟩
      exact ⟨hall.1, hall.2, hv ▸ hlt, hv⟩
    · rintro ⟨-, -, hlt, hv⟩
      exact ⟨hv, hv ▸ hlt⟩

theorem dropPlus_digits (hds : ∀ c ∈ ds, isDigit 16 c = true) :
    dropPlus ds = ds := by
  unfold dropPlus
  split
  case h_1 => exact absurd (hds '+' List.mem_cons_self) (by decide)
  case h_2 => rfl

theorem HexEscape.read (h : HexEscape ds v) :
    hexUnit (bytes ds) = some v := by
  have hlt := h.ascii.2.2
  rw [hexUnit, fromUtf8_bytes, Option.bind_some, fromStrRadix16_eq_some]
  cases h with
  | digits hlength hds =>
    rw [dropPlus_digits hds]
    exact ⟨List.ne_nil_of_length_eq_add_one hlength, hds, hlt, rfl⟩
  | plus hlength hds =>
    rename_i ds
    obtain ⟨d, ds, rfl⟩ := List.exists_cons_of_length_eq_add_one hlength
    exact ⟨List.cons_ne_nil d ds, hds, hlt, rfl⟩

theorem exists_hexEscape {bs : List Nat} (hbs : ∀ b ∈ bs, b < 256) (hlength : bs.length = 4)
    (h : hexUnit bs = some v) :
    ∃ ds, HexEscape ds v ∧ bs = bytes ds := by
  obtain ⟨t, htext, hradix⟩ := Option.bind_eq_some_iff.mp h
  obtain rfl := eq_bytes_of_fromUtf8 hbs htext
  refine ⟨t, ?_, rfl⟩
  have hfour : Ascii t → t.length = 4 := by
    intro ht
    rw [← hlength, bytes_ascii ht, List.length_map]
  obtain ⟨-, hds, -, rfl⟩ := fromStrRadix16_eq_some.mp hradix
  unfold dropPlus at hds ⊢
  split at hds
  case h_1 d ds =>
    have hascii : Ascii ('+' :: d :: ds) := by
      intro c hc
      rcases List.mem_cons.mp hc with rfl | hc
      · decide
      · exact hex_ascii hds c hc
    exact .plus (Nat.succ.inj (hfour hascii)) hds
  case h_2 => exact .digits (hfour (hex_ascii hds)) hds

/-! ## §2 Behind `\u` -/

def NoSurrogate (v : Nat) : Prop := v < 0xD800 ∨ 0xE000 ≤ v

theorem fromU32_of_valid {n : Nat} (h : n.isValidChar) : fromU32 n = some (Char.ofNat n) := if_pos h

theorem fromU32_eq_some (hlt : v < 65536) :
    fromU32 v = some c ↔ NoSurrogate v ∧ c = Char.ofNat v := by
  unfold fromU32 NoSurrogate
  have hvalid : v.isValidChar ↔ v < 0xD800 ∨ 0xE000 ≤ v := by
    unfold Nat.isValidChar
    omega
  by_cases h : v.isValidChar
  · rw [if_pos h, Option.some.injEq]
    exact ⟨fun heq => ⟨hvalid.mp h, heq.symm⟩, fun heq => heq.2.symm⟩
  · rw [if_neg h]
    constructor
    · intro heq
      cases heq
    · intro heq
      exact absurd (hvalid.mpr heq.1) h

theorem length_bytes (h : HexEscape ds v) : (bytes ds).length = 4 := by
  rw [bytes_ascii h.ascii.1, List.length_map, h.ascii.2.1]

theorem reassemble_none (h : fromU32 v = some c) (x : List Nat) :
    reassemble v none x = .ok (c, x) := by
  unfold reassemble
  dsimp only
  rw [h, okOr]

theorem reassemble_some {low : Nat} (h : fromU32 (joinPair v low) = some c) (x : List Nat) :
    reassemble v (some low) x = .ok (c, x.drop 6) := by
  unfold reassemble
  dsimp only
  rw [h, okOr]

theorem unicodeEscape_eq {hex rest : List Nat} (hlength : hex.length = 4)
    (h : hexUnit hex = some v) :
    unicodeEscape (hex ++ rest) =
      reassemble v (if 0xD800 ≤ v ∧ v < 0xDC00 then lowEscape rest else none) rest := by
  unfold unicodeEscape
  rw [if_neg (by rw [List.length_append]; omega), List.take_left' hlength, h,
    List.drop_left' hlength]

theorem unicodeEscape_single (h : HexEscape ds v) (hv : NoSurrogate v) (us : Units) :
    unicodeEscape (wire (units ds ++ us)) = .ok (Char.ofNat v, wire us) := by
  have hnot : ¬ (0xD800 ≤ v ∧ v < 0xDC00) := by
    unfold NoSurrogate at hv
    omega
  have hchar : fromU32 v = some (Char.ofNat v) := (fromU32_eq_some h.ascii.2.2).mpr ⟨hv, rfl⟩
  rw [wire_units h.ascii.1, unicodeEscape_eq (length_bytes h) h.read, if_neg hnot]
  exact reassemble_none hchar _

theorem lowEscape_escape (h : HexEscape ds v) (hv : 0xDC00 ≤ v ∧ v < 0xE000) (x : List Nat) :
    lowEscape (byte '\\' :: byte 'u' :: (bytes ds ++ x)) = some v := by
  have hlength := length_bytes h
  have hsix : 6 ≤ (byte '\\' :: byte 'u' :: (bytes ds ++ x)).length := by
    simp only [List.length_cons, List.length_append]
    omega
  unfold lowEscape
  rw [if_pos ⟨rfl, rfl⟩, if_pos hsix]
  dsimp only
  rw [List.drop_succ_cons, List.drop_succ_cons, List.drop_zero, List.take_left' hlength, h.read,
    Option.filter_some, if_pos (by simpa using hv)]

theorem unicodeEscape_pair {ds' : List Char} (h : HexEscape ds v) (h' : HexEscape ds' v')
    (hv : 0xD800 ≤ v ∧ v < 0xDC00) (hv' : 0xDC00 ≤ v' ∧ v' < 0xE000) (us : Units) :
    unicodeEscape (wire (units ds ++ unit '\\' :: unit 'u' :: (units ds' ++ us))) =
      .ok (Char.ofNat (joinPair v v'), wire us) := by
  have hvalid : (joinPair v v').isValidChar := by
    unfold joinPair Nat.isValidChar
    omega
  rw [wire_units h.ascii.1, wire_unit (by decide), wire_unit (by decide), wire_units h'.ascii.1,
    unicodeEscape_eq (length_bytes h) h.read, if_pos hv, lowEscape_escape h' hv',
    reassemble_some (fromU32_of_valid hvalid), List.drop_succ_cons, List.drop_succ_cons,
    List.drop_left' (length_bytes h')]

theorem okOr_eq_ok {o : Option Char} {text : String} {x : List Nat} {y : List Nat}
    (h : okOr o text x = .ok (c, y)) : o = some c ∧ x = y := by
  cases o with
  | none => cases h
  | some d =>
    obtain ⟨rfl, rfl⟩ := Prod.mk.inj (Except.ok.inj h)
    exact ⟨rfl, rfl⟩

theorem exists_of_head (hc : c.toNat < 128) (h : (wire us).head? = some (byte c)) :
    ∃ us', us = unit c :: us' ∧ wire us = byte c :: wire us' := by
  cases hx : wire us with
  | nil =>
    rw [hx] at h
    cases h
  | cons b x =>
    rw [hx] at h
    obtain rfl := Option.some.inj h
    obtain ⟨us', rfl, rfl⟩ := exists_of_wire_unit hc hx
    exact ⟨us', rfl, rfl⟩

theorem exists_hex (hlong : 4 ≤ (wire us).length) (h : hexUnit ((wire us).take 4) = some v) :
    ∃ ds us', HexEscape ds v ∧ us = units ds ++ us' ∧ (wire us).drop 4 = wire us' := by
  have hlength : ((wire us).take 4).length = 4 := by
    rw [List.length_take]
    omega
  have hlt : ∀ b ∈ (wire us).take 4, b < 256 := fun b hb => lt_of_mem_bytes (List.mem_of_mem_take hb)
  obtain ⟨ds, hds, hbytes⟩ := exists_hexEscape hlt hlength h
  have hsplit := List.take_append_drop 4 (wire us)
  have hascii : ∀ b ∈ (wire us).take 4, b < 128 := by
    rw [hbytes, bytes_ascii hds.ascii.1]
    intro b hb
    obtain ⟨c, hc, rfl⟩ := List.mem_map.mp hb
    exact hds.ascii.1 c hc
  obtain ⟨t, us', hus, ht, -, hrest⟩ := exists_of_wire_append hascii hsplit.symm
  obtain rfl := bytes_injective (ht.trans hbytes)
  exact ⟨t, us', hds, hus, hrest⟩

theorem exists_lowEscape (h : lowEscape (wire us) = some v) :
    ∃ ds us', HexEscape ds v ∧ (0xDC00 ≤ v ∧ v < 0xE000) ∧
      us = unit '\\' :: unit 'u' :: (units ds ++ us') := by
  unfold lowEscape at h
  split at h
  case isFalse => cases h
  case isTrue hstart =>
    dsimp only at h
    obtain ⟨hhex, hrange⟩ := Option.filter_eq_some_iff.mp h
    rw [← List.head?_eq_getElem?] at hstart
    obtain ⟨us₁, rfl, hx₁⟩ := exists_of_head (by decide) hstart.1
    have hsecond := hstart.2
    rw [hx₁, List.getElem?_cons_succ, ← List.head?_eq_getElem?] at hsecond
    obtain ⟨us₂, rfl, hx₂⟩ := exists_of_head (by decide) hsecond
    rw [hx₁, hx₂, List.drop_succ_cons, List.drop_succ_cons, List.drop_zero] at hhex
    split at hhex
    case isFalse =>
      obtain ⟨t, htext, hradix⟩ := Option.bind_eq_some_iff.mp hhex
      obtain rfl := Option.some.inj (htext.symm.trans (fromUtf8_bytes []))
      exact absurd rfl (fromStrRadix16_eq_some.mp hradix).1
    case isTrue hsix =>
      simp only [List.length_cons] at hsix
      obtain ⟨ds, us', hds, rfl, -⟩ := exists_hex (by omega) hhex
      exact ⟨ds, us', hds, of_decide_eq_true hrange, rfl⟩

/-- **What an escape is read as.** -/
theorem exists_unicodeEscape {x : List Nat} (h : unicodeEscape (wire us) = .ok (c, x)) :
    ∃ ds v us', HexEscape ds v ∧ us = units ds ++ us' ∧
      ((NoSurrogate v ∧ c = Char.ofNat v ∧ x = wire us') ∨
        ((0xD800 ≤ v ∧ v < 0xDC00) ∧ ∃ ds' v' us'', HexEscape ds' v' ∧ (0xDC00 ≤ v' ∧ v' < 0xE000) ∧
          us' = unit '\\' :: unit 'u' :: (units ds' ++ us'') ∧ fromU32 (joinPair v v') = some c ∧
          x = wire us'')) := by
  unfold unicodeEscape at h
  split at h
  case isTrue => cases h
  case isFalse hlong =>
    split at h
    case h_1 => cases h
    case h_2 v hhex =>
      obtain ⟨ds, us', hds, rfl, hrest⟩ := exists_hex (Nat.le_of_not_lt hlong) hhex
      refine ⟨ds, v, us', hds, rfl, ?_⟩
      rw [hrest] at h
      generalize hlow : (if 0xD800 ≤ v ∧ v < 0xDC00 then lowEscape (wire us') else none) = low at h
      unfold reassemble at h
      cases low with
      | none =>
        obtain ⟨hchar, rfl⟩ := okOr_eq_ok h
        obtain ⟨hv, rfl⟩ := (fromU32_eq_some hds.ascii.2.2).mp hchar
        exact .inl ⟨hv, rfl, rfl⟩
      | some v' =>
        obtain ⟨hchar, rfl⟩ := okOr_eq_ok h
        split at hlow
        case isFalse => cases hlow
        case isTrue hv =>
          obtain ⟨ds', us'', hds', hv', rfl⟩ := exists_lowEscape hlow
          refine .inr ⟨hv, ds', v', us'', hds', hv', rfl, hchar, ?_⟩
          rw [wire_unit (by decide), wire_unit (by decide), wire_units hds'.ascii.1,
            List.drop_succ_cons, List.drop_succ_cons, List.drop_left' (length_bytes hds')]

/-! ## §3 Pairs -/

/-- The pieces of a string, the quote behind them, and what follows. -/
def written (ps : List Piece) (r : Units) : Units := ps.flatMap Piece.units ++ unit '"' :: r

theorem written_cons (p : Piece) (ps : List Piece) (r : Units) :
    written (p :: ps) r = p.units ++ written ps r := by
  rw [written, List.flatMap_cons, List.append_assoc]
  rfl

theorem escapesPaired_cons {p : Piece} {ps : List Piece} : EscapesPaired (p :: ps) ↔
    if p.isHex = true ∧ IsHigh p.code then
      ∃ q ps', ps = q :: ps' ∧ (q.isHex = true ∧ IsLow q.code) ∧ EscapesPaired ps'
    else ¬ (p.isHex = true ∧ IsLow p.code) ∧ EscapesPaired ps := by
  cases ps with
  | nil =>
    unfold EscapesPaired
    split
    case isTrue h =>
      constructor
      · intro hp
        exact absurd h.2 (hp h.1).1
      · rintro ⟨q, ps', hnil, -⟩
        cases hnil
    case isFalse h =>
      constructor
      · intro hp
        exact ⟨fun hlow => (hp hlow.1).2 hlow.2, trivial⟩
      · rintro ⟨hp, -⟩ hhex
        exact ⟨fun hhigh => h ⟨hhex, hhigh⟩, fun hlow => hp ⟨hhex, hlow⟩⟩
  | cons q ps =>
    rw [EscapesPaired]
    split
    case isTrue h =>
      constructor
      · rintro ⟨hq, hps⟩
        exact ⟨q, ps, rfl, hq, hps⟩
      · rintro ⟨q', ps', hcons, hq, hps⟩
        obtain ⟨rfl, rfl⟩ := List.cons.inj hcons
        exact ⟨hq, hps⟩
    case isFalse h => exact Iff.rfl

theorem escapesPaired_of_not_hex {p : Piece} {ps : List Piece} (h : p.isHex = false) :
    EscapesPaired (p :: ps) ↔ EscapesPaired ps := by
  rw [escapesPaired_cons, if_neg (by simp [h])]
  simp [h]

theorem not_low_head {p : Piece} {ps : List Piece} (h : EscapesPaired (p :: ps)) :
    ¬ (p.isHex = true ∧ IsLow p.code) := by
  rw [escapesPaired_cons] at h
  split at h
  case isTrue hhigh =>
    rintro ⟨-, hlow⟩
    have hle := hhigh.2.2
    have hge := hlow.1
    omega
  case isFalse => exact h.1

theorem not_surrogate_unit {c : Char} (h : c.toNat < 128) : ¬ IsHigh (unit c) ∧ ¬ IsLow (unit c) :=
  ascii_not_surrogate (by rwa [toNat_unit h])

theorem lowNext_of_code {ps : List Piece} {r : Units} (hps : EscapesPaired ps)
    (h : LowNext (codes ps)) : LowNext (written ps r) := by
  cases ps with
  | nil =>
    obtain ⟨w, hw, -⟩ := h
    cases hw
  | cons p ps =>
    obtain ⟨w, hw, hlow⟩ := h
    obtain rfl := Option.some.inj hw
    rw [written_cons]
    cases p with
    | raw u hplain => exact ⟨u, rfl, hlow⟩
    | short esc c hshort => exact absurd hlow (not_surrogate_unit hshort.read.2.2.2).2
    | hex ds v hhex => exact absurd ⟨rfl, hlow⟩ (not_low_head hps)

theorem exists_raw_of_lowNext {ps : List Piece} {r : Units} (h : LowNext (written ps r)) :
    ∃ w hw ps', ps = .raw w hw :: ps' ∧ IsLow w := by
  obtain ⟨w, hw, hlow⟩ := h
  have hquote := (not_surrogate_unit (c := '"') (by decide)).2
  have hbackslash := (not_surrogate_unit (c := '\\') (by decide)).2
  cases ps with
  | nil =>
    obtain rfl := Option.some.inj hw
    exact absurd hlow hquote
  | cons p ps =>
    cases p with
    | raw u hplain =>
      obtain rfl := Option.some.inj hw
      exact ⟨u, hplain, ps, rfl, hlow⟩
    | short esc c hshort =>
      obtain rfl := Option.some.inj hw
      exact absurd hlow hbackslash
    | hex ds v hhex =>
      obtain rfl := Option.some.inj hw
      exact absurd hlow hbackslash

theorem decode_codes_single {u : BitVec 16} {ps : List Piece} {r : Units} (hps : EscapesPaired ps)
    (h : ¬ (IsHigh u ∧ LowNext (written ps r))) :
    decode (u :: codes ps) = unitChar u :: decode (codes ps) :=
  decode_cons_single fun hpair => h ⟨hpair.1, lowNext_of_code hps hpair.2⟩

/-! ## §4 The loop -/

theorem isHigh_code (h : v < 65536) : IsHigh (BitVec.ofNat 16 v) ↔ 0xD800 ≤ v ∧ v < 0xDC00 := by
  unfold IsHigh
  rw [BitVec.toNat_ofNat, Nat.mod_eq_of_lt h]

theorem isLow_code (h : v < 65536) : IsLow (BitVec.ofNat 16 v) ↔ 0xDC00 ≤ v ∧ v < 0xE000 := by
  unfold IsLow
  rw [BitVec.toNat_ofNat, Nat.mod_eq_of_lt h]

theorem pairChar_code (h : v < 65536) (h' : v' < 65536) :
    pairChar (BitVec.ofNat 16 v) (BitVec.ofNat 16 v') = Char.ofNat (joinPair v v') := by
  unfold pairChar joinPair
  rw [BitVec.toNat_ofNat, BitVec.toNat_ofNat, Nat.mod_eq_of_lt h, Nat.mod_eq_of_lt h']

theorem pairChar_of_fromU32 (h : v < 65536) (h' : v' < 65536)
    (hchar : fromU32 (joinPair v v') = some c) :
    pairChar (BitVec.ofNat 16 v) (BitVec.ofNat 16 v') = c := by
  rw [pairChar_code h h']
  unfold fromU32 at hchar
  split at hchar
  case isTrue => exact Option.some.inj hchar
  case isFalse => cases hchar

theorem unitChar_code (h : v < 65536) (hv : NoSurrogate v) :
    unitChar (BitVec.ofNat 16 v) = Char.ofNat v := by
  have hnot : ¬ IsHigh (BitVec.ofNat 16 v) ∧ ¬ IsLow (BitVec.ofNat 16 v) := by
    rw [isHigh_code h, isLow_code h]
    unfold NoSurrogate at hv
    omega
  rw [unitChar_of_not_surrogate hnot, BitVec.toNat_ofNat, Nat.mod_eq_of_lt h]

theorem unitChar_unit (h : c.toNat < 128) : unitChar (unit c) = c := by
  rw [unitChar_of_not_surrogate (not_surrogate_unit h), toNat_unit h, Char.ofNat_toNat]

section Loop

variable {len fuel : Nat} {out : List Char}
variable {ps : List Piece} {us : Units} {out' : List Char} {x : List Nat} {c : Char}

-- The equations are made here, ahead of the proofs below that all ask for them.
attribute [local simp] stringLoop

theorem stringLoop_char {c : Char} {t : List Char} (hquote : c ≠ '"') (hbackslash : c ≠ '\\') :
    stringLoop len (fuel + 1) out (bytes (c :: t)) =
      if c.toNat < 0x20 then .error (.message
        s!"Unexpected control character at position {position len (bytes (c :: t))}")
      else stringLoop len fuel (out ++ [c]) (bytes t) := by
  have htext := fromUtf8_bytes (c :: t)
  have hdrop : (bytes (c :: t)).drop (size c) = bytes t := by
    rw [bytes_cons]
    exact List.drop_left' (List.length_map ..)
  have hhead : ∃ b x, bytes (c :: t) = b :: x ∧ b ≠ byte '"' ∧ b ≠ byte '\\' := by
    rcases Lib.Utf8.encodeChar_cases c with ⟨hsmall, hbytes⟩ | ⟨-, b, bs, hbytes, hlarge⟩
    · refine ⟨c.toNat, bytes t, bytes_cons_ascii hsmall t, ?_, ?_⟩
      · exact fun h => hquote (V12.Interp.char_ext h)
      · exact fun h => hbackslash (V12.Interp.char_ext h)
    · refine ⟨b, bs ++ bytes t, by rw [bytes_cons, hbytes]; rfl, ?_, ?_⟩ <;>
      · rintro rfl
        exact absurd hlarge (by decide)
  obtain ⟨b, x, hx, hb, hb'⟩ := hhead
  rw [hx] at htext hdrop ⊢
  rw [stringLoop.eq_def]
  dsimp only
  rw [if_neg hb, if_neg hb', htext]
  dsimp only
  rw [hdrop]

theorem stringLoop_quote (x : List Nat) :
    stringLoop len (fuel + 1) out (byte '"' :: x) = .ok (out, x) := by
  rw [stringLoop.eq_def]
  exact if_pos rfl

theorem stringLoop_short {esc c : Char} (h : ShortEscape esc c) (x : List Nat) :
    stringLoop len (fuel + 1) out (byte '\\' :: byte esc :: x) =
      stringLoop len fuel (out ++ [c]) x := by
  rw [stringLoop, if_neg (by decide), if_pos rfl, if_neg h.read.2.1, h.read.1]

theorem stringLoop_hex {c : Char} {x y : List Nat} (h : unicodeEscape x = .ok (c, y)) :
    stringLoop len (fuel + 1) out (byte '\\' :: byte 'u' :: x) =
      stringLoop len fuel (out ++ [c]) y := by
  rw [stringLoop, if_neg (by decide), if_pos rfl, if_pos rfl, h]

theorem unitChar_ne {u : BitVec 16} {c : Char} (hc : c.toNat < 128) (h : u ≠ unit c) :
    unitChar u ≠ c := by
  intro heq
  by_cases hu : IsHigh u ∨ IsLow u
  · rw [unitChar, if_pos hu] at heq
    rw [← heq] at hc
    exact absurd hc (by decide)
  · rw [not_or] at hu
    have hvalid : u.toNat.isValidChar := by
      have hlt := u.isLt
      unfold IsHigh IsLow at hu
      unfold Nat.isValidChar
      omega
    rw [unitChar_of_not_surrogate hu] at heq
    refine h (BitVec.eq_of_toNat_eq ?_)
    rw [toNat_unit hc, ← heq, toNat_ofNat_of_valid hvalid]

theorem unitChar_control {u : BitVec 16} : (unitChar u).toNat < 0x20 ↔ u.toNat < 0x20 := by
  by_cases hu : IsHigh u ∨ IsLow u
  · rw [unitChar, if_pos hu]
    have hlarge : ¬ u.toNat < 0x20 := by
      unfold IsHigh IsLow at hu
      omega
    exact iff_of_false (by decide) hlarge
  · rw [not_or] at hu
    have hvalid : u.toNat.isValidChar := by
      have hlt := u.isLt
      unfold IsHigh IsLow at hu
      unfold Nat.isValidChar
      omega
    rw [unitChar_of_not_surrogate hu, toNat_ofNat_of_valid hvalid]

theorem pairChar_ne {u w : BitVec 16} (hu : IsHigh u) (hw : IsLow w) {c : Char}
    (hc : c.toNat < 128) : pairChar u w ≠ c := by
  rintro rfl
  have hlarge := pairChar_large hu hw
  omega

theorem stringLoop_pair {u w : BitVec 16} (hu : IsHigh u) (hw : IsLow w) (us : Units) :
    stringLoop len (fuel + 1) out (wire (u :: w :: us)) =
      stringLoop len fuel (out ++ [pairChar u w]) (wire us) := by
  have hlarge := pairChar_large hu hw
  rw [wire, decode_pair_cons hu hw, stringLoop_char (pairChar_ne hu hw (by decide))
    (pairChar_ne hu hw (by decide)), if_neg (by omega)]
  rfl

theorem stringLoop_raw {u : BitVec 16} (h : Plain u) {us : Units}
    (hsingle : ¬ (IsHigh u ∧ LowNext us)) :
    stringLoop len (fuel + 1) out (wire (u :: us)) =
      stringLoop len fuel (out ++ [unitChar u]) (wire us) := by
  have hcontrol : ¬ (unitChar u).toNat < 0x20 := by
    rw [unitChar_control]
    exact Nat.not_lt.mpr h.no_control
  rw [wire, decode_cons_single hsingle, stringLoop_char (unitChar_ne (by decide) h.no_quote)
    (unitChar_ne (by decide) h.no_backslash), if_neg hcontrol]
  rfl

theorem stringLoop_end {r : Units} (hfuel : (written [] r).length ≤ fuel) :
    stringLoop len fuel out (wire (written [] r)) = .ok (out ++ decode (codes []), wire r) := by
  obtain ⟨f, rfl⟩ := Nat.exists_eq_add_of_lt (Nat.lt_of_lt_of_le (Nat.succ_pos r.length) hfuel)
  have hwritten : written [] r = unit '"' :: r := rfl
  have hcodes : decode (codes []) = [] := rfl
  rw [hwritten, wire_unit (by decide), Nat.zero_add, stringLoop_quote, hcodes, List.append_nil]

/-- **A string is read to its closing quote.** -/
theorem stringLoop_written (len : Nat) (r : Units) (n : Nat) (hn : ps.length ≤ n)
    (hps : EscapesPaired ps) {fuel : Nat} (hfuel : (written ps r).length ≤ fuel) (out : List Char) :
    stringLoop len fuel out (wire (written ps r)) = .ok (out ++ decode (codes ps), wire r) := by
  -- a pair takes two pieces at once, so the induction is on their number
  induction n generalizing ps fuel out with
  | zero =>
    obtain rfl := List.eq_nil_of_length_eq_zero (Nat.le_zero.mp hn)
    exact stringLoop_end hfuel
  | succ n ih =>
    cases ps with
    | nil => exact stringLoop_end hfuel
    | cons p ps =>
      have hlength : ps.length ≤ n := Nat.le_of_succ_le_succ hn
      rw [written_cons] at hfuel ⊢
      rw [List.length_append] at hfuel
      cases p with
      | raw u hplain =>
        have hunits : (Piece.raw u hplain).units.length = 1 := rfl
        obtain ⟨f, rfl⟩ : ∃ f, fuel = f + 1 := ⟨fuel - 1, by omega⟩
        have hf : (written ps r).length ≤ f := by omega
        have hrest := (escapesPaired_of_not_hex rfl).mp hps
        by_cases hpair : IsHigh u ∧ LowNext (written ps r)
        · obtain ⟨w, hw, ps, rfl, hlow⟩ := exists_raw_of_lowNext hpair.2
          have hf' : (written ps r).length ≤ f := by
            rw [written_cons, List.length_append] at hf
            omega
          have hlength' : ps.length ≤ n := Nat.le_of_succ_le hlength
          have hnext := ih hlength' ((escapesPaired_of_not_hex rfl).mp hrest) hf'
            (out ++ [pairChar u w])
          have hdecode := decode_pair_cons hpair.1 hlow (codes ps)
          refine (stringLoop_pair hpair.1 hlow (written ps r)).trans (hnext.trans ?_)
          rw [List.append_assoc, List.singleton_append, ← hdecode]
          rfl
        · have hnext := ih hlength hrest hf (out ++ [unitChar u])
          refine (stringLoop_raw hplain hpair).trans (hnext.trans ?_)
          rw [List.append_assoc, List.singleton_append, ← decode_codes_single hrest hpair]
          rfl
      | short esc c hshort =>
        have hunits : (Piece.short esc c hshort).units.length = 2 := rfl
        obtain ⟨f, rfl⟩ : ∃ f, fuel = f + 1 := ⟨fuel - 1, by omega⟩
        have hf : (written ps r).length ≤ f := by omega
        have hrest := (escapesPaired_of_not_hex rfl).mp hps
        have hascii := hshort.read.2.2.2
        have hsingle : ¬ (IsHigh (unit c) ∧ LowNext (codes ps)) :=
          fun h => (not_surrogate_unit hascii).1 h.1
        have hnext := ih hlength hrest hf (out ++ [c])
        have hdecode := decode_cons_single hsingle
        rw [unitChar_unit hascii] at hdecode
        have hwritten : (Piece.short esc c hshort).units ++ written ps r =
            unit '\\' :: unit esc :: written ps r := rfl
        rw [hwritten, wire_unit (by decide), wire_unit hshort.read.2.2.1, stringLoop_short hshort]
        refine hnext.trans ?_
        rw [List.append_assoc, List.singleton_append, ← hdecode]
        rfl
      | hex ds v hhex =>
        have hunits : (Piece.hex ds v hhex).units.length = ds.length + 2 := by
          rw [Piece.units, List.length_cons, List.length_cons, List.length_map]
        obtain ⟨f, rfl⟩ : ∃ f, fuel = f + 1 := ⟨fuel - 1, by omega⟩
        have hf : (written ps r).length ≤ f := by omega
        have hlt := hhex.ascii.2.2
        have hwritten : (Piece.hex ds v hhex).units ++ written ps r =
            unit '\\' :: unit 'u' :: (units ds ++ written ps r) := rfl
        rw [hwritten, wire_unit (by decide), wire_unit (by decide)]
        rw [escapesPaired_cons] at hps
        split at hps
        case isTrue hhigh =>
          obtain ⟨q, ps, rfl, hq, hrest⟩ := hps
          cases q with
          | raw | short => cases hq.1
          | hex ds' v' hhex' =>
            have hlt' := hhex'.ascii.2.2
            have hv := (isHigh_code hlt).mp hhigh.2
            have hv' := (isLow_code hlt').mp hq.2
            have hf' : (written ps r).length ≤ f := by
              rw [written_cons, List.length_append] at hf
              omega
            have hlength' : ps.length ≤ n := Nat.le_of_succ_le hlength
            have hnext := ih hlength' hrest hf' (out ++ [Char.ofNat (joinPair v v')])
            have hdecode : decode (BitVec.ofNat 16 v :: BitVec.ofNat 16 v' :: codes ps) =
                pairChar (BitVec.ofNat 16 v) (BitVec.ofNat 16 v') :: decode (codes ps) :=
              decode_pair_cons hhigh.2 hq.2 (codes ps)
            have hwritten' : written (.hex ds' v' hhex' :: ps) r =
                unit '\\' :: unit 'u' :: (units ds' ++ written ps r) := written_cons _ _ _
            rw [hwritten', stringLoop_hex (unicodeEscape_pair hhex hhex' hv hv' _)]
            refine hnext.trans ?_
            rw [List.append_assoc, List.singleton_append, ← pairChar_code hlt hlt', ← hdecode]
            rfl
        case isFalse hhigh =>
          obtain ⟨hlow, hrest⟩ := hps
          have hnot : ¬ IsHigh (BitVec.ofNat 16 v) := fun h => hhigh ⟨rfl, h⟩
          have hv : NoSurrogate v := by
            have hnot' := hnot
            rw [isHigh_code hlt] at hnot'
            have hlow' : ¬ (0xDC00 ≤ v ∧ v < 0xE000) := fun h => hlow ⟨rfl, (isLow_code hlt).mpr h⟩
            unfold NoSurrogate
            omega
          have hnext := ih hlength hrest hf (out ++ [Char.ofNat v])
          have hdecode : decode (BitVec.ofNat 16 v :: codes ps) =
              unitChar (BitVec.ofNat 16 v) :: decode (codes ps) :=
            decode_cons_single fun h => hnot h.1
          rw [unitChar_code hlt hv] at hdecode
          rw [stringLoop_hex (unicodeEscape_single hhex hv _)]
          refine hnext.trans ?_
          rw [List.append_assoc, List.singleton_append, ← hdecode]
          rfl

/-- What the loop reads of a string, in front of what it reads of the rest. -/
def ReadsString (us : Units) (out out' : List Char) (x : List Nat) : Prop :=
  ∃ ps r, us = written ps r ∧ EscapesPaired ps ∧ out' = out ++ decode (codes ps) ∧ x = wire r

theorem readsString_raw {u : BitVec 16} (h : Plain u) (hsingle : ¬ (IsHigh u ∧ LowNext us))
    (hrest : ReadsString us (out ++ [unitChar u]) out' x) :
    ReadsString (u :: us) out out' x := by
  obtain ⟨ps, r, rfl, hps, rfl, rfl⟩ := hrest
  refine ⟨.raw u h :: ps, r, (written_cons (.raw u h) ps r).symm,
    (escapesPaired_of_not_hex rfl).mpr hps, ?_, rfl⟩
  rw [List.append_assoc, List.singleton_append, ← decode_codes_single hps hsingle]
  rfl

theorem readsString_pair {u w : BitVec 16} (hu : IsHigh u) (hw : IsLow w)
    (hrest : ReadsString us (out ++ [pairChar u w]) out' x) :
    ReadsString (u :: w :: us) out out' x := by
  have hplain : ∀ {v : BitVec 16}, 0xD800 ≤ v.toNat → Plain v := by
    intro v hv
    have hne : ∀ c : Char, c.toNat < 128 → v ≠ unit c := by
      rintro c hc rfl
      rw [toNat_unit hc] at hv
      omega
    exact ⟨by omega, hne _ (by decide), hne _ (by decide)⟩
  obtain ⟨ps, r, rfl, hps, rfl, rfl⟩ := hrest
  have hplain' : Plain w := hplain (Nat.le_trans (by decide) hw.1)
  refine ⟨.raw u (hplain hu.1) :: .raw w hplain' :: ps, r, ?_, ?_, ?_, rfl⟩
  · rw [written_cons, written_cons]
    rfl
  · rw [escapesPaired_of_not_hex rfl, escapesPaired_of_not_hex rfl]
    exact hps
  · rw [List.append_assoc, List.singleton_append, ← decode_pair_cons hu hw (codes ps)]
    rfl

theorem readsString_short {esc : Char} (h : ShortEscape esc c)
    (hrest : ReadsString us (out ++ [c]) out' x) :
    ReadsString (unit '\\' :: unit esc :: us) out out' x := by
  obtain ⟨ps, r, rfl, hps, rfl, rfl⟩ := hrest
  have hascii := h.read.2.2.2
  have hdecode : decode (unit c :: codes ps) = unitChar (unit c) :: decode (codes ps) :=
    decode_cons_single fun hpair => (not_surrogate_unit hascii).1 hpair.1
  rw [unitChar_unit hascii] at hdecode
  refine ⟨.short esc c h :: ps, r, (written_cons (.short esc c h) ps r).symm,
    (escapesPaired_of_not_hex rfl).mpr hps, ?_, rfl⟩
  rw [List.append_assoc, List.singleton_append, ← hdecode]
  rfl

theorem readsString_hex {y : List Nat} (h : unicodeEscape (wire us) = .ok (c, y))
    (hrest : ∀ us', y = wire us' → ReadsString us' (out ++ [c]) out' x) :
    ReadsString (unit '\\' :: unit 'u' :: us) out out' x := by
  obtain ⟨ds, v, us', hds, rfl, hcase⟩ := exists_unicodeEscape h
  have hlt := hds.ascii.2.2
  rcases hcase with ⟨hv, rfl, rfl⟩ | ⟨hv, ds', v', us'', hds', hv', rfl, hchar, rfl⟩
  · obtain ⟨ps, r, rfl, hps, rfl, rfl⟩ := hrest us' rfl
    have hnot : ¬ IsHigh (BitVec.ofNat 16 v) ∧ ¬ IsLow (BitVec.ofNat 16 v) := by
      rw [isHigh_code hlt, isLow_code hlt]
      unfold NoSurrogate at hv
      omega
    have hdecode : decode (BitVec.ofNat 16 v :: codes ps) =
        unitChar (BitVec.ofNat 16 v) :: decode (codes ps) :=
      decode_cons_single fun hpair => hnot.1 hpair.1
    rw [unitChar_code hlt hv] at hdecode
    refine ⟨.hex ds v hds :: ps, r, (written_cons (.hex ds v hds) ps r).symm, ?_, ?_, rfl⟩
    · rw [escapesPaired_cons, if_neg fun hhigh => hnot.1 hhigh.2]
      exact ⟨fun hlow => hnot.2 hlow.2, hps⟩
    · rw [List.append_assoc, List.singleton_append, ← hdecode]
      rfl
  · obtain ⟨ps, r, rfl, hps, rfl, rfl⟩ := hrest us'' rfl
    have hlt' := hds'.ascii.2.2
    have hhigh := (isHigh_code hlt).mpr hv
    have hlow := (isLow_code hlt').mpr hv'
    have hdecode : decode (BitVec.ofNat 16 v :: BitVec.ofNat 16 v' :: codes ps) =
        pairChar (BitVec.ofNat 16 v) (BitVec.ofNat 16 v') :: decode (codes ps) :=
      decode_pair_cons hhigh hlow (codes ps)
    refine ⟨.hex ds v hds :: .hex ds' v' hds' :: ps, r, ?_, ?_, ?_, rfl⟩
    · rw [written_cons, written_cons]
      rfl
    · rw [escapesPaired_cons, if_pos ⟨rfl, hhigh⟩]
      exact ⟨_, ps, rfl, ⟨rfl, hlow⟩, hps⟩
    · rw [pairChar_of_fromU32 hlt hlt' hchar] at hdecode
      rw [List.append_assoc, List.singleton_append, ← hdecode]
      rfl

/-- **What is read is a string.** -/
theorem exists_stringLoop (h : stringLoop len fuel out (wire us) = .ok (out', x)) :
    ReadsString us out out' x := by
  induction fuel generalizing us out with
  | zero => cases h
  | succ fuel ih =>
    cases start us with
    | nil => cases h
    | pair hu hw =>
      rw [stringLoop_pair hu hw] at h
      exact readsString_pair hu hw (ih h)
    | single hsingle hdecode =>
      rename_i u us
      by_cases hquote : u = unit '"'
      · subst hquote
        rw [wire_unit (by decide), stringLoop_quote] at h
        obtain ⟨rfl, rfl⟩ := Prod.mk.inj (Except.ok.inj h)
        exact ⟨[], us, rfl, trivial, (List.append_nil out).symm, rfl⟩
      by_cases hbackslash : u = unit '\\'
      · subst hbackslash
        rw [wire_unit (by decide), stringLoop.eq_def] at h
        dsimp only at h
        rw [if_neg (by decide), if_pos rfl] at h
        cases hx : wire us with
        | nil =>
          rw [hx] at h
          cases h
        | cons b y =>
          rw [hx] at h
          dsimp only at h
          by_cases hu : b = byte 'u'
          · subst hu
            rw [if_pos rfl] at h
            obtain ⟨us, rfl, rfl⟩ := exists_of_wire_unit (by decide) hx
            cases hescape : unicodeEscape (wire us) with
            | error e =>
              rw [hescape] at h
              cases h
            | ok p =>
              obtain ⟨c, y⟩ := p
              rw [hescape] at h
              refine readsString_hex hescape fun us' hy => ?_
              subst hy
              exact ih h
          · rw [if_neg hu] at h
            cases hescape : escapeChar b with
            | none =>
              rw [hescape] at h
              cases h
            | some c =>
              rw [hescape] at h
              obtain ⟨esc, rfl, hshort⟩ := exists_shortEscape hescape
              obtain ⟨us, rfl, rfl⟩ := exists_of_wire_unit hshort.read.2.2.1 hx
              exact readsString_short hshort (ih h)
      · rw [wire, hdecode, stringLoop_char (unitChar_ne (by decide) hquote)
          (unitChar_ne (by decide) hbackslash)] at h
        split at h
        case isTrue => cases h
        case isFalse hcontrol =>
          rw [unitChar_control] at hcontrol
          exact readsString_raw ⟨Nat.le_of_not_lt hcontrol, hquote, hbackslash⟩ hsingle (ih h)

end Loop

theorem string_append (ps : List Piece) (r : Units) :
    tokens.string ps ++ r = unit '"' :: written ps r := by
  change unit '"' :: (ps.flatMap Piece.units ++ [unit '"']) ++ r = _
  rw [List.cons_append, List.append_assoc]
  rfl

/-- **A string between quotes**, and what the parser makes of it. -/
theorem string_wire (len : Nat) (hps : EscapesPaired ps) (r : Units) :
    string len (wire (tokens.string ps ++ r)) = .ok (decode (codes ps), wire r) := by
  rw [string_append, wire_unit (by decide)]
  exact stringLoop_written len r ps.length (Nat.le_refl _) hps
    (Nat.le_succ_of_le (length_le_wire _)) []

theorem exists_string {len : Nat} {t : List Char} (h : string len (wire us) = .ok (t, x)) :
    ∃ ps r, us = tokens.string ps ++ r ∧ EscapesPaired ps ∧ t = decode (codes ps) ∧ x = wire r := by
  unfold string expect at h
  split at h
  case isFalse => cases h
  case isTrue hquote =>
    obtain ⟨us, rfl, hus⟩ := exists_of_head (by decide) hquote
    rw [hus] at h
    obtain ⟨ps, r, rfl, hps, rfl, rfl⟩ := exists_stringLoop h
    exact ⟨ps, r, (string_append ps r).symm, hps, rfl, rfl⟩

/-! ## §5 One string only -/

theorem unit_injective {c' : Char} (hc : c.toNat < 128) (hc' : c'.toNat < 128)
    (h : unit c = unit c') : c = c' := by
  have hnat := congrArg BitVec.toNat h
  rw [toNat_unit hc, toNat_unit hc'] at hnat
  exact V12.Interp.char_ext hnat

theorem units_append_unique {ds ds' : List Char} (hds : Ascii ds) (hds' : Ascii ds')
    (hlength : ds.length = ds'.length) {x x' : Units} (h : units ds ++ x = units ds' ++ x') :
    ds = ds' ∧ x = x' := by
  have hunits : (units ds).length = (units ds').length := by
    rw [units, units, List.length_map, List.length_map, hlength]
  obtain ⟨hmap, hx⟩ := List.append_inj h hunits
  exact ⟨V12.Interp.map_unit_injective hds hds' hmap, hx⟩

theorem ShortEscape.unique {esc c' : Char} (h : ShortEscape esc c) (h' : ShortEscape esc c') :
    c = c' := Option.some.inj (h.read.1.symm.trans h'.read.1)

theorem HexEscape.unique {ds : List Char} {v v' : Nat} (h : HexEscape ds v) (h' : HexEscape ds v') :
    v = v' := Option.some.inj (h.read.symm.trans h'.read)

theorem written_unique {ps' : List Piece} {r r' : Units} (h : written ps r = written ps' r') :
    ps = ps' ∧ r = r' := by
  have hend : ∀ {p : Piece} {ps : List Piece} {r r' : Units},
      written [] r ≠ written (p :: ps) r' := by
    intro p ps r r' h
    rw [written_cons] at h
    cases p with
    | raw u hplain => exact hplain.no_quote (List.cons.inj h).1.symm
    | short | hex => exact absurd (List.cons.inj h).1 (by decide)
  have hbackslash : ∀ {u : BitVec 16} {x y : Units}, Plain u → u :: x ≠ unit '\\' :: y :=
    fun hplain h => hplain.no_backslash (List.cons.inj h).1
  have hu : ∀ {esc c : Char} {x y : Units}, ShortEscape esc c → unit esc :: x ≠ unit 'u' :: y := by
    intro esc c x y hshort h
    have hesc := unit_injective hshort.read.2.2.1 (by decide) (List.cons.inj h).1
    exact hshort.read.2.1 (congrArg byte hesc)
  induction ps generalizing ps' with
  | nil =>
    cases ps' with
    | nil => exact ⟨rfl, (List.cons.inj h).2⟩
    | cons p' ps' => exact absurd h hend
  | cons p ps ih =>
    cases ps' with
    | nil => exact absurd h.symm hend
    | cons p' ps' =>
      rw [written_cons, written_cons] at h
      cases p with
      | raw u hplain =>
        cases p' with
        | raw u' hplain' =>
          obtain ⟨rfl, hrest⟩ := List.cons.inj h
          obtain ⟨rfl, rfl⟩ := ih hrest
          exact ⟨rfl, rfl⟩
        | short | hex => exact absurd h (hbackslash hplain)
      | short esc c hshort =>
        cases p' with
        | raw u' hplain' => exact absurd h.symm (hbackslash hplain')
        | short esc' c' hshort' =>
          obtain ⟨hesc, hrest⟩ := List.cons.inj (List.cons.inj h).2
          obtain rfl := unit_injective hshort.read.2.2.1 hshort'.read.2.2.1 hesc
          obtain rfl := hshort.unique hshort'
          obtain ⟨rfl, rfl⟩ := ih hrest
          exact ⟨rfl, rfl⟩
        | hex => exact absurd (List.cons.inj h).2 (hu hshort)
      | hex ds v hhex =>
        cases p' with
        | raw u' hplain' => exact absurd h.symm (hbackslash hplain')
        | short esc' c' hshort' => exact absurd (List.cons.inj h).2.symm (hu hshort')
        | hex ds' v' hhex' =>
          have hdigits := (List.cons.inj (List.cons.inj h).2).2
          obtain ⟨rfl, hrest⟩ := units_append_unique hhex.ascii.1 hhex'.ascii.1
            (hhex.ascii.2.1.trans hhex'.ascii.2.1.symm) hdigits
          obtain rfl := hhex.unique hhex'
          obtain ⟨rfl, rfl⟩ := ih hrest
          exact ⟨rfl, rfl⟩

/-- **Numbers and strings can be told from each other and from what follows them.** -/
theorem lawful_tokens : tokens.Lawful where
  number_start n := by
    obtain ⟨d, t, hunsigned, hd⟩ := n.unsigned_start
    rw [isDigit_ten, asciiDigit_iff] at hd
    have hunit : Lib.JsonText.startsNumber (unit d) = true := by
      unfold Lib.JsonText.startsNumber
      rw [toNat_unit (by omega)]
      simp [hd]
    change ∃ u t', units n.text = u :: t' ∧ _
    unfold Numeral.text
    rw [hunsigned]
    cases n.minus with
    | false => exact ⟨_, _, rfl, hunit⟩
    | true => exact ⟨_, _, rfl, by decide⟩
  number_unique n n' r r' hr hr' h := number_unique n n' r r' hr hr' h
  string_start ps := ⟨_, rfl⟩
  string_unique ps ps' r r' h := by
    rw [string_append, string_append] at h
    exact written_unique (List.cons.inj h).2

end V12.Json
