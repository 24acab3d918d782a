/-
V12.Engine.JsonTokens — what the parser sees of a string, and how it reads numbers.

What the parser reads are the bytes of a string's text (`wire`). As long as it
has read ASCII, or whole characters, the bytes that are left are those of the
units that are left, so the scan of a number takes its spelling and no more.
-/
import V12.Engine.JsonGrammar
import V12.Interp.NumberText

namespace V12.Json

open Lib.JsonText (Units Doc Tokens IsText unit units Blank isBlank isCloser Next Follow)
open Lib.Utf8 Lib.Utf16
open V12.Interp (isDigit digitsValue Digits ExponentPart scaled validDecimal parseF64 Ascii)

variable {u : BitVec 16} {us : Units} {c : Char} {t ds exp : List Char} {b : Nat} {r x : List Nat}
  {e : Int}

/-! ## §1 Bytes of units -/

def wire (us : Units) : List Nat := bytes (decode us)

def pairChar (u w : BitVec 16) : Char :=
  Char.ofNat (0x10000 + (u.toNat - 0xD800) * 0x400 + (w.toNat - 0xDC00))

def LowNext (us : Units) : Prop := ∃ w ∈ us.head?, IsLow w

theorem decode_pair_cons {w : BitVec 16} (hu : IsHigh u) (hw : IsLow w) (us : Units) :
    decode (u :: w :: us) = pairChar u w :: decode us := by
  rw [decode, if_pos ⟨hu, hw⟩, pairChar]

theorem decode_cons_single (h : ¬ (IsHigh u ∧ LowNext us)) :
    decode (u :: us) = unitChar u :: decode us := by
  cases us with
  | nil => rfl
  | cons w us =>
    rw [decode, if_neg]
    rintro ⟨hu, hw⟩
    exact h ⟨hu, w, rfl, hw⟩

theorem ascii_not_surrogate (h : u.toNat < 128) : ¬ IsHigh u ∧ ¬ IsLow u := by
  unfold IsHigh IsLow
  omega

theorem unitChar_of_not_surrogate (h : ¬ IsHigh u ∧ ¬ IsLow u) :
    unitChar u = Char.ofNat u.toNat := by
  rw [unitChar, if_neg (not_or.mpr h)]

theorem toNat_ofNat_of_valid {n : Nat} (h : n.isValidChar) : (Char.ofNat n).toNat = n := by
  rw [Char.ofNat, dif_pos h]
  rfl

theorem toNat_unit (h : c.toNat < 128) : (unit c).toNat = c.toNat := by
  rw [unit, BitVec.toNat_ofNat, Nat.mod_eq_of_lt (by omega)]

theorem wire_cons (h : u.toNat < 128) (us : Units) :
    wire (u :: us) = u.toNat :: wire us := by
  have hu := ascii_not_surrogate h
  have hchar := toNat_ofNat_of_valid (n := u.toNat) (.inl (by omega))
  rw [wire, decode_cons_single fun hpair => hu.1 hpair.1, unitChar_of_not_surrogate hu,
    bytes_cons_ascii (by omega), hchar, wire]

theorem wire_unit (h : c.toNat < 128) (us : Units) :
    wire (unit c :: us) = byte c :: wire us := by
  rw [wire_cons (by rwa [toNat_unit h]), toNat_unit h, byte]

theorem wire_units (h : Ascii t) (us : Units) :
    wire (units t ++ us) = bytes t ++ wire us := by
  induction t with
  | nil => rfl
  | cons c t ih =>
    have hc := h c List.mem_cons_self
    have hrest := ih fun a ha => h a (List.mem_cons_of_mem c ha)
    rw [bytes_cons_ascii hc, List.cons_append, ← hrest]
    exact wire_unit hc _

theorem two_le_size (h : 128 ≤ c.toNat) : 2 ≤ size c := by
  have hval : c.val.toNat = c.toNat := rfl
  unfold size String.utf8EncodeChar
  simp only [hval]
  split
  case isTrue => omega
  case isFalse =>
    split
    case isTrue => simp
    case isFalse => split <;> simp

theorem pairChar_large {w : BitVec 16} (hu : IsHigh u) (hw : IsLow w) :
    0x10000 ≤ (pairChar u w).toNat := by
  have hvalid : Nat.isValidChar (0x10000 + (u.toNat - 0xD800) * 0x400 + (w.toNat - 0xDC00)) := by
    unfold IsHigh at hu
    unfold IsLow at hw
    exact .inr (by omega)
  rw [pairChar, toNat_ofNat_of_valid hvalid]
  omega

/-- How the text of a string begins. -/
inductive Start : Units → Prop
  | nil : Start []
  | single {u : BitVec 16} {us : Units} (h : ¬ (IsHigh u ∧ LowNext us))
      (hdecode : decode (u :: us) = unitChar u :: decode us) : Start (u :: us)
  | pair {u w : BitVec 16} {us : Units} (hu : IsHigh u) (hw : IsLow w)
      (hdecode : decode (u :: w :: us) = pairChar u w :: decode us) : Start (u :: w :: us)

theorem start (us : Units) : Start us := by
  cases us with
  | nil => exact .nil
  | cons u us =>
    by_cases h : IsHigh u ∧ LowNext us
    · obtain ⟨hu, w, hw, hlow⟩ := h
      cases us with
      | nil => cases hw
      | cons w' us =>
        obtain rfl := Option.some.inj hw
        exact .pair hu hlow (decode_pair_cons hu hlow us)
    · exact .single h (decode_cons_single h)

theorem exists_of_wire (hb : b < 128) (h : wire us = b :: r) :
    ∃ u us', us = u :: us' ∧ u.toNat = b ∧ r = wire us' := by
  unfold wire at h
  cases start us with
  | nil => cases h
  | single hsingle hdecode =>
    rename_i u us
    rw [hdecode] at h
    rcases Lib.Utf8.encodeChar_cases (unitChar u) with ⟨hsmall, -⟩ | ⟨-, b', bs, hbytes, hlarge⟩
    · rw [bytes_cons_ascii hsmall] at h
      obtain ⟨rfl, rfl⟩ := List.cons.inj h
      refine ⟨u, us, rfl, ?_, rfl⟩
      by_cases hsurrogate : IsHigh u ∨ IsLow u
      · rw [unitChar, if_pos hsurrogate] at hb
        exact absurd hb (by decide)
      · have hu := u.isLt
        unfold IsHigh IsLow at hsurrogate
        rw [unitChar, if_neg (by unfold IsHigh IsLow; exact hsurrogate)]
        exact (toNat_ofNat_of_valid (by unfold Nat.isValidChar; omega)).symm
    · rw [bytes_cons, hbytes] at h
      obtain ⟨rfl, -⟩ := List.cons.inj h
      omega
  | pair hu hw hdecode =>
    rename_i u w us
    rw [hdecode] at h
    have hlarge := pairChar_large hu hw
    rcases Lib.Utf8.encodeChar_cases (pairChar u w) with ⟨hsmall, -⟩ | ⟨-, b', bs, hbytes, hb'⟩
    · omega
    · rw [bytes_cons, hbytes] at h
      obtain ⟨rfl, -⟩ := List.cons.inj h
      omega

theorem exists_of_wire_unit (hc : c.toNat < 128) (h : wire us = byte c :: r) :
    ∃ us', us = unit c :: us' ∧ r = wire us' := by
  obtain ⟨u, us', rfl, hu, hr⟩ := exists_of_wire hc h
  refine ⟨us', ?_, hr⟩
  rw [← BitVec.eq_of_toNat_eq (hu.trans (toNat_unit hc).symm)]

theorem exists_of_wire_append {p : List Nat} (hp : ∀ b ∈ p, b < 128) (h : wire us = p ++ r) :
    ∃ t us', us = units t ++ us' ∧ bytes t = p ∧ Ascii t ∧ r = wire us' := by
  induction p generalizing us with
  | nil => exact ⟨[], us, rfl, rfl, fun c hc => absurd hc List.not_mem_nil, h.symm⟩
  | cons b p ih =>
    have hb := hp b List.mem_cons_self
    obtain ⟨u, us', rfl, hu, hr⟩ := exists_of_wire hb h
    obtain ⟨t, us'', rfl, rfl, ht, hrest⟩ := ih (fun a ha => hp a (List.mem_cons_of_mem b ha)) hr.symm
    have hchar := toNat_ofNat_of_valid (n := b) (.inl (by omega))
    refine ⟨Char.ofNat b :: t, us'', ?_, ?_, ?_, hrest⟩
    · have hunit : unit (Char.ofNat b) = u := by
        refine BitVec.eq_of_toNat_eq ?_
        rw [toNat_unit (by omega), hchar, hu]
      rw [← hunit]
      rfl
    · rw [bytes_cons_ascii (by omega), hchar]
    · intro c hc
      rcases List.mem_cons.mp hc with rfl | hc
      · omega
      · exact ht c hc

theorem length_le_wire (us : Units) : us.length ≤ (wire us).length := by
  induction us using decode.induct with
  | case1 => exact Nat.le_refl 0
  | case2 u =>
    have hpos := size_pos (unitChar u)
    have hdecode : decode [u] = [unitChar u] := rfl
    rw [wire, hdecode, length_bytes_cons]
    exact Nat.le_trans hpos (Nat.le_add_right _ _)
  | case3 u w us hpair ih =>
    have hlarge := pairChar_large hpair.1 hpair.2
    have hsize := two_le_size (c := pairChar u w) (by omega)
    rw [wire, decode_pair_cons hpair.1 hpair.2, length_bytes_cons]
    unfold wire at ih
    simp only [List.length_cons]
    omega
  | case4 u w us hpair ih =>
    have hpos := size_pos (unitChar u)
    rw [wire, decode, if_neg hpair, length_bytes_cons]
    unfold wire at ih
    simp only [List.length_cons] at ih ⊢
    omega

/-! ## §2 White space -/

theorem isBlank_eq (u : BitVec 16) : isBlank u = isWs u.toNat := by
  have hunit : ∀ c : Char, c.toNat < 128 → decide (u = unit c) = decide (u.toNat = byte c) := by
    intro c hc
    refine decide_eq_decide.mpr ⟨fun h => ?_, fun h => ?_⟩
    · rw [h, toNat_unit hc, byte]
    · exact BitVec.eq_of_toNat_eq (h.trans (toNat_unit hc).symm)
  unfold isBlank isWs
  rw [hunit ' ' (by decide), hunit '\t' (by decide), hunit '\n' (by decide), hunit '\r' (by decide)]

theorem isWs_lt (h : isWs b = true) : b < 128 := by
  simp only [isWs, Bool.or_eq_true, decide_eq_true_eq] at h
  rcases h with ((rfl | rfl) | rfl) | rfl <;> decide

theorem exists_ws (us : Units) :
    ∃ r, Blank us r ∧ Next (fun u => !isBlank u) r ∧ ws (wire us) = wire r := by
  have hsplit := List.takeWhile_append_dropWhile (p := isWs) (l := wire us)
  obtain ⟨t, r, rfl, hbytes, hascii, hr⟩ := exists_of_wire_append
    (fun b hb => isWs_lt (List.mem_takeWhile_imp hb)) hsplit.symm
  refine ⟨r, ⟨units t, fun u hu => ?_, rfl⟩, fun u hu => ?_, hr⟩
  · obtain ⟨c, hc, rfl⟩ := List.mem_map.mp hu
    rw [isBlank_eq, toNat_unit (hascii c hc)]
    have hmem : c.toNat ∈ bytes t := by
      rw [bytes_ascii hascii]
      exact List.mem_map_of_mem hc
    rw [hbytes] at hmem
    exact List.mem_takeWhile_imp hmem
  · cases r with
    | nil => cases hu
    | cons v r =>
      obtain rfl := Option.some.inj hu
      by_cases hblank : isBlank v = true
      · have hv := isBlank_eq v
        rw [hblank] at hv
        rw [wire_cons (isWs_lt hv.symm)] at hr
        have hhead := List.head?_dropWhile_not isWs (wire (units t ++ v :: r))
        rw [hr] at hhead
        exact absurd hv.symm (by simpa using hhead)
      · simpa using hblank

theorem ws_of_blank {r : Units} (h : Blank us r) (hr : Next (fun u => !isBlank u) r) :
    ws (wire us) = wire r := by
  obtain ⟨r', h', hr', hws⟩ := exists_ws us
  rw [hws, h.unique h' hr hr']

/-! ## §3 Numbers -/

theorem isDigit_ten (c : Char) : isDigit 10 c = asciiDigit c.toNat := by
  have h0 : '0' ≤ c ↔ 48 ≤ c.toNat := Iff.rfl
  have h9 : c ≤ '9' ↔ c.toNat ≤ 57 := Iff.rfl
  have ha : 'a' ≤ c ↔ 97 ≤ c.toNat := Iff.rfl
  have hA : 'A' ≤ c ↔ 65 ≤ c.toNat := Iff.rfl
  unfold isDigit V12.Interp.toDigit asciiDigit
  simp only [h0, h9, ha, hA]
  by_cases hdigit : 48 ≤ c.toNat ∧ c.toNat ≤ 57
  · have hlt : c.toNat - 48 < 10 := by omega
    simp [hdigit, hlt]
  · have hlower : 97 ≤ c.toNat → ¬ c.toNat - 87 < 10 := by omega
    have hupper : 65 ≤ c.toNat → ¬ c.toNat - 55 < 10 := by omega
    rw [if_neg hdigit, decide_eq_false hdigit]
    split
    case isTrue h => simp [hlower h.1]
    case isFalse =>
      split
      case isTrue h => simp [hupper h.1]
      case isFalse => rfl

/-- Bytes behind a number: no digit, no point and no exponent. -/
structure After (x : List Nat) : Prop where
  no_digit : ∀ b ∈ x.head?, asciiDigit b = false
  no_point : x.head? ≠ some (byte '.')
  no_e : x.head? ≠ some (byte 'e')
  no_E : x.head? ≠ some (byte 'E')

theorem after_wire {r : Units} (h : Follow r) : After (wire r) := by
  cases r with
  | nil =>
    have hnone : (wire []).head? = none := rfl
    refine ⟨?_, ?_, ?_, ?_⟩ <;> rw [hnone]
    · intro b hb
      cases hb
    · exact (Option.some_ne_none _).symm
    · exact (Option.some_ne_none _).symm
    · exact (Option.some_ne_none _).symm
  | cons u r =>
    have hu := h u rfl
    simp only [isBlank, isCloser, Bool.or_eq_true, decide_eq_true_eq] at hu
    have hunit : ∃ c ∈ [' ', '\t', '\n', '\r', ',', ']', '\x7d'], u = unit c := by
      rcases hu with (((h | h) | h) | h) | ((h | h) | h) <;> exact ⟨_, by decide, h⟩
    obtain ⟨c, hc, rfl⟩ := hunit
    have hsmall : ∀ c ∈ [' ', '\t', '\n', '\r', ',', ']', '\x7d'], c.toNat < 128 ∧
        asciiDigit (byte c) = false ∧ byte c ≠ byte '.' ∧ byte c ≠ byte 'e' ∧ byte c ≠ byte 'E' := by
      simp only [List.forall_mem_cons, List.not_mem_nil, false_implies, implies_true, and_true]
      decide
    obtain ⟨hascii, hdigit, hpoint, he, hE⟩ := hsmall c hc
    rw [wire_unit hascii]
    refine ⟨fun b hb => ?_, fun h => hpoint (Option.some.inj h), fun h => he (Option.some.inj h),
      fun h => hE (Option.some.inj h)⟩
    obtain rfl := Option.some.inj hb
    exact hdigit

theorem ascii_of_digits (h : ∀ c ∈ ds, isDigit 10 c = true) : Ascii ds := by
  intro c hc
  have hdigit := h c hc
  rw [isDigit_ten, asciiDigit_iff] at hdigit
  omega

theorem dropWhile_bytes (h : ∀ c ∈ ds, isDigit 10 c = true)
    (hx : ∀ b ∈ x.head?, asciiDigit b = false) : (bytes ds ++ x).dropWhile asciiDigit = x := by
  rw [bytes_ascii (ascii_of_digits h), List.dropWhile_append_of_pos]
  · cases x with
    | nil => rfl
    | cons b x => exact List.dropWhile_cons_of_neg (by rw [hx b rfl]; decide)
  · intro b hb
    obtain ⟨c, hc, rfl⟩ := List.mem_map.mp hb
    rw [← isDigit_ten]
    exact h c hc

theorem head_digits (h : Digits 10 ds) (x : List Nat) :
    ∃ b, (bytes ds ++ x).head? = some b ∧ asciiDigit b = true := by
  obtain ⟨c, ds, rfl⟩ := List.exists_cons_of_ne_nil h.1
  have hc := h.2 c List.mem_cons_self
  rw [bytes_cons_ascii (ascii_of_digits h.2 c List.mem_cons_self)]
  exact ⟨c.toNat, rfl, by rw [← isDigit_ten, hc]⟩

theorem ne_of_digit (h : asciiDigit b = true) : b ≠ byte '-' ∧ b ≠ byte '+' := by
  rw [asciiDigit_iff] at h
  refine ⟨?_, ?_⟩ <;>
  · rintro rfl
    exact absurd h (by decide)

theorem exponent_start (h : ExponentPart exp e) :
    exp = [] ∨ ∃ c ds, exp = c :: ds ∧ (c = 'e' ∨ c = 'E') := by
  cases h with
  | absent => exact .inl rfl
  | plain hc | plus hc | minus hc => exact .inr ⟨_, _, rfl, hc⟩

theorem skipExponent_bytes (h : ExponentPart exp e) (hx : After x) :
    skipExponent (bytes exp ++ x) = x := by
  have hascii : ∀ {c : Char}, c = 'e' ∨ c = 'E' → c.toNat < 128 := by
    rintro c (rfl | rfl) <;> decide
  have hletter : ∀ {c : Char}, c = 'e' ∨ c = 'E' → some c.toNat = some (byte 'e') ∨
      some c.toNat = some (byte 'E') := by
    rintro c (rfl | rfl)
    · exact .inl rfl
    · exact .inr rfl
  unfold skipExponent
  cases h with
  | absent =>
    change (if x.head? = _ ∨ x.head? = _ then _ else x) = x
    exact if_neg (not_or.mpr ⟨hx.no_e, hx.no_E⟩)
  | plain hc hds =>
    rename_i c ds
    obtain ⟨b, hhead, hb⟩ := head_digits hds x
    rw [bytes_cons_ascii (hascii hc), List.cons_append, List.head?_cons, if_pos (hletter hc)]
    simp only [List.tail_cons, hhead]
    rw [if_neg, dropWhile_bytes hds.2 hx.no_digit]
    rintro (h | h) <;> obtain rfl := Option.some.inj h
    · exact (ne_of_digit hb).2 rfl
    · exact (ne_of_digit hb).1 rfl
  | plus hc hds =>
    rename_i c ds
    rw [bytes_cons_ascii (hascii hc), bytes_cons_ascii (by decide), List.cons_append,
      List.head?_cons, if_pos (hletter hc)]
    exact (congrArg (List.dropWhile asciiDigit) (if_pos (Or.inl rfl))).trans
      (dropWhile_bytes hds.2 hx.no_digit)
  | minus hc hds =>
    rename_i c ds
    rw [bytes_cons_ascii (hascii hc), bytes_cons_ascii (by decide), List.cons_append,
      List.head?_cons, if_pos (hletter hc)]
    exact (congrArg (List.dropWhile asciiDigit) (if_pos (Or.inr rfl))).trans
      (dropWhile_bytes hds.2 hx.no_digit)

theorem exponent_head (h : ExponentPart exp e) (hx : After x) :
    (∀ b ∈ (bytes exp ++ x).head?, asciiDigit b = false) ∧
      (bytes exp ++ x).head? ≠ some (byte '.') := by
  rcases exponent_start h with rfl | ⟨c, ds, rfl, hc⟩
  · exact ⟨hx.no_digit, hx.no_point⟩
  · rcases hc with rfl | rfl <;> rw [bytes_cons_ascii (by decide)] <;>
    · refine ⟨fun b hb => ?_, fun h => absurd (Option.some.inj h) (by decide)⟩
      obtain rfl := Option.some.inj hb
      decide

theorem skipFraction_bytes {frac : Option (List Char)}
    (hfrac : ∀ c ∈ frac.getD [], isDigit 10 c = true) (h : ExponentPart exp e) (hx : After x) :
    skipFraction (bytes (fractionText frac) ++ (bytes exp ++ x)) = bytes exp ++ x := by
  obtain ⟨hdigit, hpoint⟩ := exponent_head h hx
  cases frac with
  | none =>
    change skipFraction (bytes exp ++ x) = _
    exact if_neg hpoint
  | some ds =>
    rw [fractionText, bytes_cons_ascii (by decide), List.cons_append, skipFraction]
    exact (if_pos rfl).trans (dropWhile_bytes hfrac hdigit)

theorem fraction_head {frac : Option (List Char)} (h : ExponentPart exp e) (hx : After x) :
    ∀ b ∈ (bytes (fractionText frac) ++ (bytes exp ++ x)).head?, asciiDigit b = false := by
  cases frac with
  | none => exact (exponent_head h hx).1
  | some ds =>
    intro b hb
    rw [fractionText, bytes_cons_ascii (by decide)] at hb
    obtain rfl := Option.some.inj hb
    decide

section Numerals

variable (n : Numeral)

theorem Numeral.literal : V12.Interp.StrUnsignedDecimalLiteral n.unsigned
    (.decimal (digitsValue 10 (n.whole ++ n.frac.getD [])) (n.exponent - (n.frac.getD []).length)) := by
  have hdigits := n.frac_digits
  unfold unsigned
  cases hfrac : n.frac with
  | none =>
    simp only [fractionText, List.nil_append, Option.getD_none, List.append_nil, List.length_nil,
      Nat.cast_zero, sub_zero]
    exact .whole n.whole_digits n.exp_part
  | some ds =>
    rw [hfrac] at hdigits
    have hds : ds = [] ∨ Digits 10 ds := by
      rcases eq_or_ne ds [] with hnil | hne
      · exact .inl hnil
      · exact .inr ⟨hne, hdigits⟩
    have h : V12.Interp.StrUnsignedDecimalLiteral (n.whole ++ '.' :: ds ++ n.exp) _ :=
      .point n.whole_digits hds n.exp_part
    rwa [List.append_assoc] at h

theorem Numeral.ascii_unsigned : Ascii n.unsigned := V12.Interp.ascii_of_solid n.literal.solid

theorem Numeral.ascii_text : Ascii n.text := by
  intro c hc
  unfold text at hc
  split at hc
  case isTrue =>
    rcases List.mem_append.mp hc with hsign | hc
    · rw [List.mem_singleton.mp hsign]
      decide
    · exact n.ascii_unsigned c hc
  case isFalse => exact n.ascii_unsigned c hc

theorem Numeral.unsigned_start : ∃ d t, n.unsigned = d :: t ∧ isDigit 10 d = true := by
  obtain ⟨d, t, h⟩ := List.exists_cons_of_ne_nil n.whole_digits.1
  refine ⟨d, t ++ (fractionText n.frac ++ n.exp), ?_, n.whole_digits.2 d (h ▸ List.mem_cons_self)⟩
  rw [unsigned, h, List.cons_append]

theorem not_word {d : Char} {t : List Char} (hd : isDigit 10 d = true) {word : List Char}
    (hword : word.head?.any (isDigit 10) = false) : (d :: t).map Char.toLower ≠ word := by
  rintro rfl
  have h : isDigit 10 d.toLower = false := hword
  rw [V12.Interp.isDigit_toLower, hd] at h
  cases h

theorem splitSign_digit {d : Char} {t : List Char} (hd : isDigit 10 d = true) :
    splitSign (d :: t) = (false, d :: t) := by
  unfold splitSign
  split
  case h_1 heq =>
    cases heq
    exact absurd hd (by decide)
  case h_2 heq =>
    cases heq
    exact absurd hd (by decide)
  case h_3 => rfl

theorem parseFloat_split {s t : List Char} {d : Char} {minus : Bool} (hd : isDigit 10 d = true)
    (hs : splitSign s = (minus, d :: t)) :
    parseFloat s = if validDecimal (d :: t) then
      some (if minus = true then Lib.Binary64.neg (parseF64 (d :: t)) else parseF64 (d :: t))
    else none := by
  unfold parseFloat
  rw [hs]
  dsimp only
  rw [if_neg (not_or.mpr ⟨not_word hd (by decide), not_word hd (by decide)⟩),
    if_neg (not_word hd (by decide))]

/-- **The host reads the number.** -/
theorem parseFloat_text : parseFloat n.text = some n.value := by
  obtain ⟨d, t, hunsigned, hd⟩ := n.unsigned_start
  obtain ⟨hvalid, hparse⟩ := V12.Interp.valid_of_literal n.literal
  have hsigned := V12.Interp.signed_scaled n.minus (digitsValue 10 (n.whole ++ n.frac.getD []))
    (n.exponent - (n.frac.getD []).length)
  rw [hunsigned] at hvalid hparse
  have hsign : splitSign n.text = (n.minus, d :: t) := by
    unfold Numeral.text
    rw [hunsigned]
    cases n.minus with
    | false => exact splitSign_digit hd
    | true => rfl
  rw [parseFloat_split hd hsign, if_pos hvalid, hparse, hsigned, Numeral.value]

theorem Numeral.value_zero (h : Lib.Binary64.units n.value = 0) :
    n.value = Lib.Binary64.ofUnits n.minus 0 := by
  unfold value at h ⊢
  rw [V12.Interp.scaled_eq] at h ⊢
  generalize hu : Lib.Decimal.rounded _ _ = u at h ⊢
  have hfloat : Lib.Binary64.IsFloat u := by
    rw [← hu]
    exact Lib.Decimal.isFloat_rounded _ _
  rcases Nat.lt_or_ge u Lib.Binary64.overflow with hlt | hge
  · rw [(Lib.Binary64.ofUnits_spec n.minus hfloat hlt).2.2] at h
    rw [h]
  · rw [Lib.Binary64.ofUnits_of_overflow _ hge] at h
    exact absurd h (Lib.Binary64.infinity_spec _).2.2.2

theorem ofNat_zero : Lib.Binary64.ofNat 0 = Lib.Binary64.ofUnits false 0 := by
  rw [Lib.Binary64.ofNat, Nat.zero_mul]

theorem settle_zero (x : List Nat) :
    (if Lib.Binary64.units n.value = 0 ∧ n.text.head? = some '-' then
      (.ok (.number (Lib.Binary64.neg (Lib.Binary64.ofNat 0)), x) : Reads (Value × List Nat))
    else .ok (.number (jsNumber n.value), x)) = .ok (.number n.value, x) := by
  have hhead : n.text.head? = some '-' ↔ n.minus = true := by
    obtain ⟨d, t, hunsigned, hd⟩ := n.unsigned_start
    unfold Numeral.text
    rw [hunsigned]
    cases n.minus with
    | true => exact ⟨fun _ => rfl, fun _ => rfl⟩
    | false =>
      refine ⟨fun h => ?_, fun h => by cases h⟩
      obtain rfl := Option.some.inj h
      exact absurd hd (by decide)
  by_cases hzero : Lib.Binary64.units n.value = 0
  · have hvalue := n.value_zero hzero
    cases hminus : n.minus with
    | true =>
      rw [if_pos ⟨hzero, hhead.mpr hminus⟩, hvalue, hminus, ofNat_zero, Lib.Binary64.neg_ofUnits]
      rfl
    | false =>
      have hne : ¬ n.text.head? = some '-' := by
        rw [hhead, hminus]
        decide
      rw [if_neg fun h => hne h.2, jsNumber, if_pos hzero, hvalue, hminus, ofNat_zero]
  · rw [if_neg fun h => hzero h.1, jsNumber, if_neg hzero]

theorem bytes_text : bytes n.text = (if n.minus = true then [byte '-'] else []) ++ bytes n.unsigned := by
  unfold Numeral.text
  cases n.minus with
  | false => rfl
  | true => exact bytes_cons_ascii (by decide) _

theorem skipMinus (x : List Nat) :
    (if (bytes n.text ++ x).head? = some (byte '-') then (bytes n.text ++ x).tail
      else bytes n.text ++ x) = bytes n.unsigned ++ x := by
  rw [bytes_text]
  cases n.minus with
  | true => exact if_pos rfl
  | false =>
    obtain ⟨d, t, hunsigned, hd⟩ := n.unsigned_start
    have hdigit : Ascii [d] := ascii_of_digits (by simpa using hd)
    have hascii := hdigit d (List.mem_singleton_self d)
    refine if_neg ?_
    rw [hunsigned, bytes_cons_ascii hascii]
    intro h
    rw [isDigit_ten, Option.some.inj h] at hd
    exact absurd hd (by decide)

/-- **A number is read to its end.** -/
theorem number_wire {r : Units} (hr : Follow r) :
    number (wire (units n.text ++ r)) = .ok (.number n.value, wire r) := by
  have hx := after_wire hr
  generalize hwire : wire r = x at hx
  have hfraction : (bytes n.unsigned ++ x).dropWhile asciiDigit =
      bytes (fractionText n.frac) ++ (bytes n.exp ++ x) := by
    rw [Numeral.unsigned, bytes_append, bytes_append, List.append_assoc, List.append_assoc]
    exact dropWhile_bytes n.whole_digits.2 (fraction_head n.exp_part hx)
  have hbehind : skipExponent (skipFraction (bytes (fractionText n.frac) ++ (bytes n.exp ++ x))) = x := by
    rw [skipFraction_bytes n.frac_digits n.exp_part hx, skipExponent_bytes n.exp_part hx]
  have hlength : (bytes (fractionText n.frac) ++ (bytes n.exp ++ x)).length ≠
      (bytes n.unsigned ++ x).length := by
    obtain ⟨d, ds, hwhole⟩ := List.exists_cons_of_ne_nil n.whole_digits.1
    have hpos := size_pos d
    simp only [Numeral.unsigned, bytes_append, List.length_append, hwhole, length_bytes_cons]
    omega
  have htext : (bytes n.text ++ x).take ((bytes n.text ++ x).length - x.length) = bytes n.text := by
    rw [List.length_append, Nat.add_sub_cancel, List.take_left]
  rw [wire_units n.ascii_text, hwire]
  unfold number
  rw [skipMinus]
  dsimp only
  rw [hfraction, if_neg hlength, hbehind, htext, fromUtf8_bytes]
  dsimp only
  rw [parseFloat_text]
  exact settle_zero n x

end Numerals

/-- `y` is behind some ASCII of `x`. -/
def Behind (x y : List Nat) : Prop := ∃ p, (∀ b ∈ p, b < 128) ∧ x = p ++ y

theorem Behind.refl (x : List Nat) : Behind x x := ⟨[], by simp, rfl⟩

theorem Behind.trans {y z : List Nat} (h : Behind x y) (h' : Behind y z) : Behind x z := by
  obtain ⟨p, hp, rfl⟩ := h
  obtain ⟨q, hq, rfl⟩ := h'
  refine ⟨p ++ q, fun b hb => ?_, by rw [List.append_assoc]⟩
  rcases List.mem_append.mp hb with hb | hb
  · exact hp b hb
  · exact hq b hb

theorem behind_digits (x : List Nat) : Behind x (x.dropWhile asciiDigit) := by
  refine ⟨x.takeWhile asciiDigit, fun b hb => ?_, List.takeWhile_append_dropWhile.symm⟩
  have hdigit := List.mem_takeWhile_imp hb
  rw [asciiDigit_iff] at hdigit
  omega

theorem behind_tail (hb : b < 128) (h : x.head? = some b) :
    Behind x x.tail := by
  cases x with
  | nil => cases h
  | cons a x =>
    obtain rfl := Option.some.inj h
    exact ⟨[a], by simpa using hb, rfl⟩

theorem behind_fraction (x : List Nat) : Behind x (skipFraction x) := by
  unfold skipFraction
  split
  case isTrue h => exact (behind_tail (by decide) h).trans (behind_digits _)
  case isFalse => exact .refl x

theorem behind_exponent (x : List Nat) : Behind x (skipExponent x) := by
  unfold skipExponent
  split
  case isFalse => exact .refl x
  case isTrue h =>
    have htail : Behind x x.tail := by
      rcases h with h | h
      · exact behind_tail (by decide) h
      · exact behind_tail (by decide) h
    refine htail.trans (Behind.trans ?_ (behind_digits _))
    split
    case isFalse => exact .refl _
    case isTrue h' =>
      rcases h' with h' | h'
      · exact behind_tail (by decide) h'
      · exact behind_tail (by decide) h'

theorem exists_numeral {d : Char} (hd : isDigit 10 d = true) (hvalid : validDecimal (d :: t) = true)
    (minus : Bool) :
    ∃ n : Numeral, n.text = (if minus then ['-'] else []) ++ d :: t := by
  obtain ⟨m, e, hliteral⟩ := V12.Interp.exists_literal hvalid
  generalize ht : d :: t = s at hliteral
  cases hliteral with
  | point hwhole hfrac hexp =>
    rename_i whole frac exp e
    have hdigits : ∀ c ∈ (some frac).getD [], isDigit 10 c = true := by
      rcases hfrac with rfl | hfrac
      · exact fun c hc => absurd hc List.not_mem_nil
      · exact hfrac.2
    refine ⟨⟨minus, whole, some frac, exp, e, hwhole, hdigits, hexp⟩, ?_⟩
    simp [Numeral.text, Numeral.unsigned, fractionText]
  | frac hfrac hexp =>
    obtain ⟨rfl, -⟩ := List.cons.inj ht
    exact absurd hd (by decide)
  | whole hwhole hexp =>
    rename_i whole exp
    refine ⟨⟨minus, whole, none, exp, e, hwhole, fun c hc => absurd hc List.not_mem_nil, hexp⟩, ?_⟩
    simp [Numeral.text, Numeral.unsigned, fractionText]

theorem Behind.length_le {y : List Nat} (h : Behind x y) : y.length ≤ x.length := by
  obtain ⟨p, -, rfl⟩ := h
  rw [List.length_append]
  exact Nat.le_add_left _ _

theorem exists_first_digit (ht : Ascii t)
    (hx : x.length ≤ ((bytes t ++ x).dropWhile asciiDigit).length)
    (hlength : ((bytes t ++ x).dropWhile asciiDigit).length ≠ (bytes t ++ x).length) :
    ∃ d t', t = d :: t' ∧ isDigit 10 d = true := by
  cases t with
  | nil =>
    have hle := (behind_digits x).length_le
    exact absurd (Nat.le_antisymm hle hx) hlength
  | cons d t =>
    refine ⟨d, t, rfl, ?_⟩
    rw [bytes_cons_ascii (ht d List.mem_cons_self), List.cons_append] at hlength
    rw [isDigit_ten]
    by_contra hd
    rw [List.dropWhile_cons_of_neg hd] at hlength
    exact hlength rfl

/-- **What is read as a number is one.** -/
theorem exists_number {v : Value} (h : number (wire us) = .ok (v, x)) :
    ∃ (n : Numeral) (r : Units), us = units n.text ++ r ∧ x = wire r ∧ v = .number n.value := by
  unfold number at h
  dsimp only at h
  generalize hsign : (if (wire us).head? = some (byte '-') then (wire us).tail else wire us) = y at h
  by_cases hlength : (y.dropWhile asciiDigit).length = y.length
  · rw [if_pos hlength] at h
    cases h
  rw [if_neg hlength] at h
  have hstart : Behind (wire us) y := by
    rw [← hsign]
    split
    case isTrue hminus => exact behind_tail (by decide) hminus
    case isFalse => exact .refl _
  have hlate := (behind_fraction (y.dropWhile asciiDigit)).trans (behind_exponent _)
  generalize skipExponent (skipFraction (y.dropWhile asciiDigit)) = behind at h hlate
  obtain ⟨p, hp, hus⟩ := hstart.trans ((behind_digits y).trans hlate)
  obtain ⟨t, r, rfl, rfl, ht, rfl⟩ := exists_of_wire_append hp hus
  rw [hus, List.length_append, Nat.add_sub_cancel, List.take_left, fromUtf8_bytes] at h
  dsimp only at h
  rw [hus] at hsign
  have htext : ∃ n : Numeral, n.text = t := by
    cases hfloat : parseFloat t with
    | none =>
      rw [hfloat] at h
      cases h
    | some z =>
      have hvalid : ∀ {d : Char} {t' : List Char} {minus : Bool}, isDigit 10 d = true →
          splitSign t = (minus, d :: t') → validDecimal (d :: t') = true := by
        intro d t' minus hd hs
        by_contra hnot
        rw [parseFloat_split hd hs, if_neg hnot] at hfloat
        cases hfloat
      split at hsign
      case isTrue hminus =>
        obtain ⟨c, t, rfl⟩ : ∃ c t', t = c :: t' := by
          cases t with
          | nil =>
            have hle := hlate.length_le.trans (behind_digits y).length_le
            have hy : y.length = (wire r).length - 1 := by
              rw [← hsign]
              exact List.length_tail
            have hne : wire r ≠ [] := by
              intro hnil
              rw [hnil] at hminus
              cases hminus
            have hpos := List.length_pos_iff.mpr hne
            omega
          | cons c t' => exact ⟨c, t', rfl⟩
        rw [bytes_cons_ascii (ht c List.mem_cons_self)] at hminus hsign
        have hc : c = '-' := V12.Interp.char_ext (Option.some.inj hminus)
        subst hc
        have hy : bytes t ++ wire r = y := hsign
        subst hy
        have ht' : Ascii t := fun c hc => ht c (List.mem_cons_of_mem _ hc)
        obtain ⟨d, t', rfl, hd⟩ := exists_first_digit ht' hlate.length_le hlength
        exact exists_numeral hd (hvalid hd rfl) true
      case isFalse =>
        subst hsign
        obtain ⟨d, t', rfl, hd⟩ := exists_first_digit ht hlate.length_le hlength
        exact exists_numeral hd (hvalid hd (splitSign_digit hd)) false
  obtain ⟨n, rfl⟩ := htext
  rw [parseFloat_text] at h
  dsimp only at h
  rw [settle_zero n] at h
  obtain ⟨rfl, rfl⟩ := Prod.mk.inj (Except.ok.inj h)
  exact ⟨n, r, rfl, rfl, rfl⟩

theorem fraction_takeWhile (n : Numeral) :
    (fractionText n.frac ++ n.exp).takeWhile (isDigit 10) = [] := by
  cases n.frac with
  | none => exact n.exp_part.start.1
  | some ds => rfl

theorem digits_unique {ds' x x' : List Char} (hds : ∀ c ∈ ds, isDigit 10 c = true)
    (hds' : ∀ c ∈ ds', isDigit 10 c = true) (hx : x.takeWhile (isDigit 10) = [])
    (hx' : x'.takeWhile (isDigit 10) = []) (h : ds ++ x = ds' ++ x') : ds = ds' ∧ x = x' := by
  obtain ⟨htake, hdrop⟩ := V12.Interp.takeWhile_digits hds hx
  obtain ⟨htake', hdrop'⟩ := V12.Interp.takeWhile_digits hds' hx'
  rw [h] at htake hdrop
  exact ⟨htake.symm.trans htake', hdrop.symm.trans hdrop'⟩

theorem Numeral.eq_of_text {n n' : Numeral} (h : n.text = n'.text) : n = n' := by
  have hminus : n.minus = n'.minus ∧ n.unsigned = n'.unsigned := by
    obtain ⟨d, t, hunsigned, hd⟩ := n.unsigned_start
    obtain ⟨d', t', hunsigned', hd'⟩ := n'.unsigned_start
    unfold text at h
    rw [hunsigned, hunsigned'] at h ⊢
    cases hm : n.minus <;> cases hm' : n'.minus <;> rw [hm, hm'] at h
    · exact ⟨rfl, h⟩
    · obtain ⟨rfl, -⟩ := List.cons.inj h
      exact absurd hd (by decide)
    · obtain ⟨rfl, -⟩ := List.cons.inj h
      exact absurd hd' (by decide)
    · exact ⟨rfl, (List.cons.inj h).2⟩
  obtain ⟨hwhole, hrest⟩ := digits_unique n.whole_digits.2 n'.whole_digits.2
    (fraction_takeWhile n) (fraction_takeWhile n') hminus.2
  have hpoint : ∀ {exp ds : List Char} {e : Int}, ExponentPart exp e → exp ≠ '.' :: ds := by
    rintro exp ds e hexp rfl
    rcases exponent_start hexp with hnil | ⟨c, t, hcons, hc⟩
    · cases hnil
    · obtain ⟨rfl, -⟩ := List.cons.inj hcons
      exact absurd hc (by decide)
  have hparts : n.frac = n'.frac ∧ n.exp = n'.exp := by
    have hdigits := n.frac_digits
    have hdigits' := n'.frac_digits
    cases hfrac : n.frac with
    | none =>
      cases hfrac' : n'.frac with
      | none =>
        rw [hfrac, hfrac'] at hrest
        exact ⟨rfl, hrest⟩
      | some ds =>
        rw [hfrac, hfrac'] at hrest
        exact absurd hrest (hpoint n.exp_part)
    | some ds =>
      cases hfrac' : n'.frac with
      | none =>
        rw [hfrac, hfrac'] at hrest
        exact absurd hrest.symm (hpoint n'.exp_part)
      | some ds' =>
        rw [hfrac] at hrest hdigits
        rw [hfrac'] at hrest hdigits'
        obtain ⟨rfl, hexp⟩ := digits_unique hdigits hdigits' n.exp_part.start.1
          n'.exp_part.start.1 (List.cons.inj hrest).2
        exact ⟨rfl, hexp⟩
  have hexponent : n.exponent = n'.exponent := by
    rw [← n.exp_part.valid.2, ← n'.exp_part.valid.2, hparts.2]
  cases n
  cases n'
  obtain ⟨rfl, -⟩ := hminus
  obtain ⟨rfl, rfl⟩ := hparts
  cases hwhole
  cases hexponent
  rfl

theorem bytes_injective {t' : List Char} (h : bytes t = bytes t') : t = t' := by
  have htext := fromUtf8_bytes t
  rw [h, fromUtf8_bytes] at htext
  exact (Option.some.inj htext).symm

/-- **Numbers are told from what follows them.** -/
theorem number_unique (n n' : Numeral) (r r' : Units) (hr : Follow r) (hr' : Follow r')
    (h : units n.text ++ r = units n'.text ++ r') : n = n' ∧ r = r' := by
  have hread := number_wire n hr
  rw [h, number_wire n' hr'] at hread
  have hwire : wire r' = wire r := congrArg Prod.snd (Except.ok.inj hread)
  have hbytes := congrArg wire h
  rw [wire_units n.ascii_text, wire_units n'.ascii_text, hwire] at hbytes
  obtain rfl := Numeral.eq_of_text (bytes_injective (List.append_cancel_right hbytes))
  exact ⟨rfl, List.append_cancel_left h⟩

end V12.Json
