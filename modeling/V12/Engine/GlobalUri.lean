/-
V12.Engine.GlobalUri — the URI functions of the global object, from
`v12-engine/src/builtins/global.rs`.

The functions work on the UTF-8 bytes of the text of their argument. An escape
is read where it is written, so what is malformed can be seen around one percent
sign, and an encoded text decodes byte by byte.
-/
import Mathlib.Data.List.Basic
import V12.Lib.StrSlice
import V12.Lib.Surrogates

namespace V12.GlobalUri

open Lib.Utf8 Lib.Utf16

variable {α : Type} {b : Nat} {bs rest : List Nat} {keepReserved componentOnly : Bool}

/-! ## §1 The functions -/

abbrev Text := List Char

def isAsciiAlphanumeric (b : Nat) : Bool :=
  (48 ≤ b && b ≤ 57) || (65 ≤ b && b ≤ 90) || (97 ≤ b && b ≤ 122)

/-- What `encodeURIComponent` leaves as it is. -/
def isUnreserved (b : Nat) : Bool :=
  isAsciiAlphanumeric b || ("-_.!~*'()".toList.map Char.toNat).contains b

/-- What `encodeURI` leaves as it is besides. -/
def isUriReserved (b : Nat) : Bool := (";/?:@&=+$,#".toList.map Char.toNat).contains b

/-- A digit of the format `X`. -/
def hexUpper (n : Nat) : Char := if n < 10 then Char.ofNat (48 + n) else Char.ofNat (55 + n)

/-- A percent sign and the format `02X`. -/
def percent (b : Nat) : Text := ['%', hexUpper (b / 16), hexUpper (b % 16)]

def encodeByte (keepReserved : Bool) (b : Nat) : Text :=
  if isUnreserved b || (keepReserved && isUriReserved b) then [Char.ofNat b] else percent b

def encode (text : Text) (keepReserved : Bool) : Text :=
  (bytes text).flatMap (encodeByte keepReserved)

/-- `(b as char).to_digit(16)`. -/
def toDigit (b : Nat) : Option Nat :=
  if 48 ≤ b ∧ b ≤ 57 then some (b - 48)
  else if 65 ≤ b ∧ b ≤ 70 then some (b - 55)
  else if 97 ≤ b ∧ b ≤ 102 then some (b - 87)
  else none

def hexByte (hi lo : Nat) : Option Nat := do
  let h ← toDigit hi
  let l ← toDigit lo
  return h * 16 + l

/-- The loop of `decode`, from the bytes that are left; `none` for a malformed escape. -/
def decodeLoop (componentOnly : Bool) : List Nat → Option (List Nat)
  | [] => some []
  | b :: rest =>
    if b = 37 then
      match rest with
      | hi :: lo :: rest =>
        match hexByte hi lo with
        | some decoded =>
          -- the escape of a reserved character passes with the case it has
          if !componentOnly && isUriReserved decoded then
            (decodeLoop componentOnly rest).map ([b, hi, lo] ++ ·)
          else (decodeLoop componentOnly rest).map (decoded :: ·)
        | none => none
      | _ => none
    else (decodeLoop componentOnly rest).map (b :: ·)

def malformed (what : String) : String := "URIError: " ++ what ++ " malformed percent-encoding"

def invalidUtf8 (what : String) : String := "URIError: " ++ what ++ " invalid UTF-8 sequence"

def decode (text : Text) (componentOnly : Bool) (what : String) : Except String Text :=
  match decodeLoop componentOnly (bytes text) with
  | none => .error (malformed what)
  | some out =>
    match fromUtf8 out with
    | some text => .ok text
    | none => .error (invalidUtf8 what)

/-- `toString` is the context's, which takes any value. -/
def argString (toString : α → Text) (args : List α) (what : String) : Except String Text :=
  match args.head? with
  | some v => .ok (toString v)
  | none => .error ("TypeError: " ++ what ++ " requires an argument")

abbrev Result := Except String (List (BitVec 16))

def globalEncodeUri (toString : α → Text) (args : List α) : Result := do
  let text ← argString toString args "encodeURI"
  return Lib.Utf16.encode (encode text true)

def globalEncodeUriComponent (toString : α → Text) (args : List α) : Result := do
  let text ← argString toString args "encodeURIComponent"
  return Lib.Utf16.encode (encode text false)

def globalDecodeUri (toString : α → Text) (args : List α) : Result := do
  let text ← argString toString args "decodeURI"
  return Lib.Utf16.encode (← decode text false "decodeURI")

def globalDecodeUriComponent (toString : α → Text) (args : List α) : Result := do
  let text ← argString toString args "decodeURIComponent"
  return Lib.Utf16.encode (← decode text true "decodeURIComponent")

/-! ## §2 Bytes -/

theorem hexByte_hexUpper (hb : b < 256) :
    hexByte (hexUpper (b / 16)).toNat (hexUpper (b % 16)).toNat = some b := by
  have hdigit : ∀ n < 16, toDigit (hexUpper n).toNat = some n := by decide
  have hhigh := hdigit (b / 16) (by omega)
  have hlow := hdigit (b % 16) (by omega)
  simp only [hexByte, hhigh, hlow, Option.bind_eq_bind, Option.bind_some, Option.pure_def]
  exact congrArg some (by omega)

theorem lt_of_isUriReserved (h : isUriReserved b = true) : b < 128 ∧ isUnreserved b = false := by
  have hall : ∀ b ∈ ";/?:@&=+$,#".toList.map Char.toNat, b < 128 ∧ isUnreserved b = false := by
    decide
  exact hall b (List.contains_iff_mem.mp h)

theorem lt_of_isUnreserved (h : isUnreserved b = true) : b < 128 ∧ b ≠ 37 := by
  rcases Bool.or_eq_true_iff.mp h with halpha | hmark
  · simp only [isAsciiAlphanumeric, Bool.or_eq_true, Bool.and_eq_true, decide_eq_true_eq] at halpha
    omega
  · have hall : ∀ b ∈ "-_.!~*'()".toList.map Char.toNat, b < 128 ∧ b ≠ 37 := by decide
    exact hall b (List.contains_iff_mem.mp hmark)

theorem decodeLoop_raw (hb : b ≠ 37) (rest : List Nat) :
    decodeLoop componentOnly (b :: rest) = (decodeLoop componentOnly rest).map (b :: ·) := by
  rw [decodeLoop.eq_def]
  exact if_neg hb

def returned (keepReserved componentOnly : Bool) (b : Nat) : List Nat :=
  if !keepReserved && !componentOnly && isUriReserved b then (percent b).map Char.toNat else [b]

theorem decodeLoop_percent (hb : b < 256) (rest : List Nat) :
    decodeLoop componentOnly ((percent b).map Char.toNat ++ rest) =
      (decodeLoop componentOnly rest).map (returned false componentOnly b ++ ·) := by
  rw [decodeLoop.eq_def]
  simp only [percent, List.map_cons, List.map_nil, List.cons_append, List.nil_append]
  rw [if_pos (show '%'.toNat = 37 from rfl), hexByte_hexUpper hb]
  unfold returned
  simp only [Bool.not_false, Bool.true_and]
  split
  · rfl
  · rfl

theorem decodeLoop_encodeByte (hb : b < 256) (rest : List Nat) :
    decodeLoop componentOnly ((encodeByte keepReserved b).map Char.toNat ++ rest) =
      (decodeLoop componentOnly rest).map (returned keepReserved componentOnly b ++ ·) := by
  have hraw : ∀ hlt : b < 128, [Char.ofNat b].map Char.toNat = [b] := by
    intro hlt
    simp only [List.map_cons, List.map_nil, toNat_ofNat_valid (n := b) (.inl (by omega))]
  unfold encodeByte
  by_cases hunreserved : isUnreserved b = true
  · obtain ⟨hlt, hne⟩ := lt_of_isUnreserved hunreserved
    have hnot : isUriReserved b = false := by
      by_contra h
      rw [(lt_of_isUriReserved (Bool.not_eq_false _ ▸ h)).2] at hunreserved
      cases hunreserved
    rw [if_pos (by simp [hunreserved]), hraw hlt, returned, hnot, Bool.and_false]
    exact decodeLoop_raw hne rest
  · cases keepReserved with
    | false =>
      rw [if_neg (by simp [hunreserved])]
      exact decodeLoop_percent hb rest
    | true =>
      by_cases hreserved : isUriReserved b = true
      · have hlt := (lt_of_isUriReserved hreserved).1
        have hne : b ≠ 37 := by
          rintro rfl
          exact absurd hreserved (by decide)
        rw [if_pos (by simp [hreserved]), hraw hlt]
        exact decodeLoop_raw hne rest
      · rw [if_neg (by simp [hunreserved, hreserved]), decodeLoop_percent hb rest]
        simp [returned, hreserved]

/-- **Encoded bytes decode one by one.** -/
theorem decodeLoop_encoded (h : ∀ b ∈ bs, b < 256) :
    decodeLoop componentOnly ((bs.flatMap (encodeByte keepReserved)).map Char.toNat) =
      some (bs.flatMap (returned keepReserved componentOnly)) := by
  induction bs with
  | nil => rfl
  | cons b bs ih =>
    have hrest := ih fun a ha => h a (List.mem_cons_of_mem b ha)
    rw [List.flatMap_cons, List.map_append, decodeLoop_encodeByte (h b List.mem_cons_self), hrest]
    rfl

theorem percent_ascii (hb : b < 256) : ∀ c ∈ percent b, c.toNat < 128 := by
  have hdigit : ∀ n < 16, (hexUpper n).toNat < 128 := by decide
  intro c hc
  simp only [percent, List.mem_cons, List.not_mem_nil, or_false] at hc
  rcases hc with rfl | rfl | rfl
  · decide
  · exact hdigit _ (by omega)
  · exact hdigit _ (by omega)

/-! ## §3 Texts -/

theorem encodeByte_ascii (hb : b < 256) : ∀ c ∈ encodeByte keepReserved b, c.toNat < 128 := by
  unfold encodeByte
  split
  case isTrue h =>
    have hlt : b < 128 := by
      rcases Bool.or_eq_true_iff.mp h with h | h
      · exact (lt_of_isUnreserved h).1
      · exact (lt_of_isUriReserved (Bool.and_eq_true_iff.mp h).2).1
    intro c hc
    rw [List.mem_singleton.mp hc, toNat_ofNat_valid (.inl (by omega))]
    exact hlt
  case isFalse => exact percent_ascii hb

theorem bytes_encode (t : Text) (keepReserved : Bool) :
    bytes (encode t keepReserved) =
      ((bytes t).flatMap (encodeByte keepReserved)).map Char.toNat := by
  refine bytes_ascii fun c hc => ?_
  obtain ⟨b, hb, hc⟩ := List.mem_flatMap.mp hc
  exact encodeByte_ascii (lt_of_mem_bytes hb) c hc

def returnedChar (keepReserved componentOnly : Bool) (c : Char) : Text :=
  if !keepReserved && !componentOnly && isUriReserved c.toNat then percent c.toNat else [c]

theorem encodeChar_large {c : Char} (h : 128 ≤ c.toNat) :
    ∀ b ∈ (String.utf8EncodeChar c).map UInt8.toNat, 128 ≤ b := by
  have hval : c.val.toNat = c.toNat := rfl
  unfold String.utf8EncodeChar
  simp only [hval]
  intro b hb
  split at hb
  case isTrue hsmall => omega
  case isFalse =>
    split at hb
    case isTrue =>
      simp only [List.map_cons, List.map_nil, List.mem_cons, List.not_mem_nil, or_false,
          UInt8.toNat_ofNat'] at hb
      omega
    case isFalse =>
      split at hb
      all_goals
        simp only [List.map_cons, List.map_nil, List.mem_cons, List.not_mem_nil, or_false,
          UInt8.toNat_ofNat'] at hb
        omega

theorem not_reserved_of_le {n : Nat} (hn : 128 ≤ n) : isUriReserved n = false := by
  by_contra h
  exact absurd (lt_of_isUriReserved (Bool.not_eq_false _ ▸ h)).1 (Nat.not_lt.mpr hn)

theorem bytes_returnedChar (c : Char) :
    bytes (returnedChar keepReserved componentOnly c) =
      ((String.utf8EncodeChar c).map UInt8.toNat).flatMap
        (returned keepReserved componentOnly) := by
  rcases Lib.Utf8.encodeChar_cases c with ⟨hlt, hbytes⟩ | ⟨hlarge, -⟩
  · rw [hbytes, List.flatMap_cons, List.flatMap_nil, List.append_nil, returnedChar, returned]
    split
    · exact bytes_ascii (percent_ascii (by omega))
    · rw [bytes_cons, hbytes]
      rfl
  · have hreturned : ∀ b ∈ (String.utf8EncodeChar c).map UInt8.toNat,
        returned keepReserved componentOnly b = [b] := by
      intro b hb
      rw [returned, not_reserved_of_le (encodeChar_large hlarge b hb), Bool.and_false]
      rfl
    rw [List.flatMap_congr hreturned, List.flatMap_singleton', returnedChar,
      not_reserved_of_le hlarge, Bool.and_false]
    exact List.append_nil _

theorem bytes_returned (t : Text) :
    bytes (t.flatMap (returnedChar keepReserved componentOnly)) =
      (bytes t).flatMap (returned keepReserved componentOnly) := by
  induction t with
  | nil => rfl
  | cons c t ih =>
    rw [List.flatMap_cons, bytes_append, ih, bytes_returnedChar, bytes_cons, List.flatMap_append]

/-- **What an encoded text decodes to**: itself, but for the reserved characters that were escaped
and are not unescaped. -/
theorem decode_encode (t : Text) (what : String) :
    decode (encode t keepReserved) componentOnly what =
      .ok (t.flatMap (returnedChar keepReserved componentOnly)) := by
  have hbytes : ∀ b ∈ bytes t, b < 256 := fun b hb => lt_of_mem_bytes hb
  rw [decode, bytes_encode, decodeLoop_encoded hbytes, ← bytes_returned]
  simp only [fromUtf8_bytes]

theorem length_returned (t : Text) :
    (t.flatMap (returnedChar keepReserved componentOnly)).length =
      t.length + 2 * (t.filter fun c =>
        !keepReserved && !componentOnly && isUriReserved c.toNat).length := by
  induction t with
  | nil => rfl
  | cons c t ih =>
    rw [List.flatMap_cons, List.length_append, ih, List.filter_cons, returnedChar]
    split
    · simp only [percent, List.length_cons, List.length_nil]
      omega
    · simp only [List.length_cons, List.length_nil]
      omega

theorem returned_eq_self_iff {t : Text} :
    t.flatMap (returnedChar keepReserved componentOnly) = t ↔
      keepReserved = true ∨ componentOnly = true ∨ ∀ c ∈ t, isUriReserved c.toNat = false := by
  constructor
  · intro h
    have hlength := congrArg List.length h
    rw [length_returned] at hlength
    have hnil : (t.filter fun c =>
        !keepReserved && !componentOnly && isUriReserved c.toNat).length = 0 := by omega
    rw [List.length_eq_zero_iff, List.filter_eq_nil_iff] at hnil
    cases keepReserved with
    | true => exact .inl rfl
    | false =>
      cases componentOnly with
      | true => exact .inr (.inl rfl)
      | false => exact .inr (.inr fun c hc => Bool.eq_false_iff.mpr (hnil c hc))
  · intro h
    have hself : ∀ c ∈ t, returnedChar keepReserved componentOnly c = [c] := by
      intro c hc
      rcases h with rfl | rfl | h
      · rfl
      · simp [returnedChar]
      · simp [returnedChar, h c hc]
    rw [List.flatMap_congr hself, List.flatMap_singleton']

/-! ## §4 Refusals -/

def MalformedAt (bs : List Nat) (i : Nat) : Prop :=
  bs[i]? = some 37 ∧ ∀ hi lo, bs[i + 1]? = some hi → bs[i + 2]? = some lo → hexByte hi lo = none

theorem exists_malformedAt_cons (hb : b ≠ 37) :
    (∃ i, MalformedAt (b :: rest) i) ↔ ∃ i, MalformedAt rest i := by
  constructor
  · rintro ⟨i, hi⟩
    cases i with
    | zero => exact absurd (Option.some.inj hi.1) hb
    | succ i => exact ⟨i, hi⟩
  · rintro ⟨i, hi⟩
    exact ⟨i + 1, hi⟩

theorem exists_malformedAt_escape {hi lo decoded : Nat} (h : hexByte hi lo = some decoded) :
    (∃ i, MalformedAt (37 :: hi :: lo :: rest) i) ↔ ∃ i, MalformedAt rest i := by
  have hhi : hi ≠ 37 := by
    rintro rfl
    cases h
  have hlo : lo ≠ 37 := by
    rintro rfl
    cases hdigit : toDigit hi <;> simp [hexByte, toDigit] at h
  refine Iff.trans ?_ ((exists_malformedAt_cons hhi).trans (exists_malformedAt_cons hlo))
  constructor
  · rintro ⟨i, hm⟩
    cases i with
    | zero =>
      rw [hm.2 hi lo rfl rfl] at h
      cases h
    | succ i => exact ⟨i, hm⟩
  · rintro ⟨i, hm⟩
    exact ⟨i + 1, hm⟩

/-- **The loop stops exactly at a malformed escape.** -/
theorem decodeLoop_eq_none_iff : decodeLoop componentOnly bs = none ↔ ∃ i, MalformedAt bs i := by
  fun_induction decodeLoop componentOnly bs with
  | case1 => simp [MalformedAt]
  | case2 hi lo rest decoded hhex hreserved ih =>
    rw [Option.map_eq_none_iff, ih, exists_malformedAt_escape hhex]
  | case3 hi lo rest decoded hhex hreserved ih =>
    rw [Option.map_eq_none_iff, ih, exists_malformedAt_escape hhex]
  | case4 hi lo rest hhex =>
    refine iff_of_true rfl ⟨0, rfl, ?_⟩
    rintro _ _ ⟨⟩ ⟨⟩
    exact hhex
  | case5 rest hshort =>
    refine iff_of_true rfl ⟨0, rfl, ?_⟩
    intro hi lo hhi hlo
    cases rest with
    | nil => cases hhi
    | cons hi rest =>
      cases rest with
      | nil => cases hlo
      | cons lo rest => exact absurd rfl (hshort hi lo rest)
  | case6 b rest hb ih => rw [Option.map_eq_none_iff, ih, exists_malformedAt_cons hb]

/-- **What is refused as malformed**: a text in which a percent sign has no two hexadecimal digits
behind it, wherever it stands and whatever else is wrong, by both functions alike. -/
theorem decode_malformed_iff (text : Text) (componentOnly : Bool) (what : String) :
    decode text componentOnly what = .error (malformed what) ↔
      ∃ i, MalformedAt (bytes text) i := by
  rw [← decodeLoop_eq_none_iff, decode]
  have hne : invalidUtf8 what ≠ malformed what := by
    intro h
    simp [invalidUtf8, malformed, String.append_assoc] at h
  cases decodeLoop componentOnly (bytes text) with
  | none => simp
  | some out =>
    simp only [reduceCtorEq, iff_false]
    cases fromUtf8 out with
    | none => exact fun h => hne (Except.error.inj h)
    | some t => exact fun h => nomatch h

/-! ## §5 Round trips -/

theorem units_not_reserved_iff {t : Text} :
    (∀ u ∈ Lib.Utf16.encode t, isUriReserved u.toNat = false) ↔
      ∀ c ∈ t, isUriReserved c.toNat = false := by
  induction t with
  | nil => simp
  | cons c t ih =>
    rw [encode_cons, List.forall_mem_append, List.forall_mem_cons, ih]
    refine and_congr_left fun _ => ?_
    unfold encodeChar
    split
    case isTrue hsmall =>
      rw [List.forall_mem_singleton, BitVec.toNat_ofNat, Nat.mod_eq_of_lt hsmall]
    case isFalse hlarge =>
      refine iff_of_true (fun u hu => not_reserved_of_le ?_) (not_reserved_of_le (by omega))
      have hmax := toNat_not_surrogate c
      simp only [List.mem_cons, List.not_mem_nil, or_false] at hu
      rcases hu with rfl | rfl
      · rw [BitVec.toNat_ofNat]
        omega
      · rw [BitVec.toNat_ofNat]
        omega

theorem then_decode {e t : Text} {what : String} (h : decode e componentOnly what = .ok t)
    (s : List (BitVec 16)) :
    (do
      let text ← argString Lib.Utf16.decode [Lib.Utf16.encode e] what
      return Lib.Utf16.encode (← decode text componentOnly what) : Result) = .ok s ↔
      Lib.Utf16.encode t = s := by
  simp only [argString, List.head?_cons, Lib.Utf16.decode_encode, bind, Except.bind, h, pure,
    Except.pure, Except.ok.injEq]

/-- **The round trips of the URI functions**: `decodeURIComponent` takes back what
`encodeURIComponent` made of a string, and `decodeURI` what `encodeURI` made of it, exactly if its
surrogates come in pairs; and `decodeURI` takes back what `encodeURIComponent` made exactly if
no reserved character is in it besides. -/
theorem uri_roundTrips (s : List (BitVec 16)) :
    ((globalEncodeUriComponent Lib.Utf16.decode [s] >>= fun e =>
      globalDecodeUriComponent Lib.Utf16.decode [e]) = .ok s ↔ Paired s) ∧
    ((globalEncodeUri Lib.Utf16.decode [s] >>= fun e =>
      globalDecodeUri Lib.Utf16.decode [e]) = .ok s ↔ Paired s) ∧
    ((globalEncodeUriComponent Lib.Utf16.decode [s] >>= fun e =>
      globalDecodeUri Lib.Utf16.decode [e]) = .ok s ↔
        Paired s ∧ ∀ u ∈ s, isUriReserved u.toNat = false) := by
  refine ⟨?_, ?_, ?_⟩
  · refine (then_decode (decode_encode (Lib.Utf16.decode s) _) s).trans ?_
    rw [returned_eq_self_iff.mpr (.inr (.inl rfl))]
    exact lossy_eq_self_iff
  · refine (then_decode (decode_encode (Lib.Utf16.decode s) _) s).trans ?_
    rw [returned_eq_self_iff.mpr (.inl rfl)]
    exact lossy_eq_self_iff
  · refine (then_decode (decode_encode (Lib.Utf16.decode s) _) s).trans ?_
    constructor
    · intro h
      -- the result is a text, so the string that equals it is one
      have htext := congrArg Lib.Utf16.decode h
      rw [Lib.Utf16.decode_encode] at htext
      have hpaired : Lib.Utf16.encode (Lib.Utf16.decode s) = s := by rw [← htext, h]
      refine ⟨lossy_eq_self_iff.mp hpaired, ?_⟩
      rw [← hpaired, units_not_reserved_iff]
      rcases returned_eq_self_iff.mp htext with hfalse | hfalse | hnone
      · cases hfalse
      · cases hfalse
      · exact hnone
    · rintro ⟨hpaired, hnone⟩
      have hself : Lib.Utf16.encode (Lib.Utf16.decode s) = s := lossy_eq_self_iff.mpr hpaired
      rw [← hself, units_not_reserved_iff] at hnone
      rw [returned_eq_self_iff.mpr (.inr (.inr hnone))]
      exact hself

end V12.GlobalUri
