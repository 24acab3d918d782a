/-
V12.Lib.Utf16 — texts, their UTF-16 code units and their UTF-8 offsets.

A text is a list of characters. `encode` and the lossy `decode` go to code units
and back. Offsets in units and in bytes are related at the cuts of a text: a cut
is named by the part in front of it, so `a ++ b` is cut at `unitLen a` units and
at `byteLen a` bytes.
-/
import Mathlib.Algebra.Ring.Nat
import Mathlib.Tactic.Common

namespace Lib.Utf16

/-! ## §1 Encoding and decoding -/

def IsHigh (u : BitVec 16) : Prop := 0xD800 ≤ u.toNat ∧ u.toNat < 0xDC00

def IsLow (u : BitVec 16) : Prop := 0xDC00 ≤ u.toNat ∧ u.toNat < 0xE000

instance (u : BitVec 16) : Decidable (IsHigh u) := inferInstanceAs (Decidable (_ ∧ _))

instance (u : BitVec 16) : Decidable (IsLow u) := inferInstanceAs (Decidable (_ ∧ _))

/-- A character outside the surrogate pairs' range takes one unit. -/
def encodeChar (c : Char) : List (BitVec 16) :=
  if c.toNat < 0x10000 then [BitVec.ofNat 16 c.toNat]
  else [BitVec.ofNat 16 (0xD800 + (c.toNat - 0x10000) / 0x400),
    BitVec.ofNat 16 (0xDC00 + (c.toNat - 0x10000) % 0x400)]

def encode (t : List Char) : List (BitVec 16) := t.flatMap encodeChar

/-- A unit on its own; a surrogate becomes U+FFFD. -/
def unitChar (u : BitVec 16) : Char :=
  if IsHigh u ∨ IsLow u then Char.ofNat 0xFFFD else Char.ofNat u.toNat

/-- Pairs are joined, unpaired surrogates become U+FFFD. -/
def decode : List (BitVec 16) → List Char
  | [] => []
  | [u] => [unitChar u]
  | u :: w :: rest =>
    if IsHigh u ∧ IsLow w then
      Char.ofNat (0x10000 + (u.toNat - 0xD800) * 0x400 + (w.toNat - 0xDC00)) :: decode rest
    else unitChar u :: decode (w :: rest)

@[simp] theorem encode_nil : encode [] = [] := rfl

@[simp] theorem encode_cons (c : Char) (t : List Char) :
    encode (c :: t) = encodeChar c ++ encode t := rfl

@[simp] theorem encode_append (a b : List Char) : encode (a ++ b) = encode a ++ encode b :=
  List.flatMap_append

theorem toNat_not_surrogate (c : Char) : c.toNat < 0xD800 ∨ 0xE000 ≤ c.toNat ∧ c.toNat < 0x110000 := by
  have h := c.valid
  simp only [UInt32.isValidChar, Nat.isValidChar] at h
  change c.toNat < 0xD800 ∨ 0xDFFF < c.toNat ∧ c.toNat < 0x110000 at h
  omega

theorem unitChar_of_bmp {c : Char} (h : c.toNat < 0x10000) :
    unitChar (BitVec.ofNat 16 c.toNat) = c ∧ ¬ IsHigh (BitVec.ofNat 16 c.toNat) := by
  have hnat : (BitVec.ofNat 16 c.toNat).toNat = c.toNat := by
    rw [BitVec.toNat_ofNat, Nat.mod_eq_of_lt h]
  have hc := toNat_not_surrogate c
  have hhigh : ¬ IsHigh (BitVec.ofNat 16 c.toNat) := by
    unfold IsHigh
    omega
  have hlow : ¬ IsLow (BitVec.ofNat 16 c.toNat) := by
    unfold IsLow
    omega
  refine ⟨?_, hhigh⟩
  rw [unitChar, if_neg (by simp [hhigh, hlow]), hnat, Char.ofNat_toNat]

theorem decode_cons_of_not_high {u : BitVec 16} (h : ¬ IsHigh u) (rest : List (BitVec 16)) :
    decode (u :: rest) = unitChar u :: decode rest := by
  cases rest with
  | nil => rfl
  | cons w rest => rw [decode, if_neg (fun hpair => h hpair.1)]

theorem decode_pair {c : Char} (h : ¬ c.toNat < 0x10000) (rest : List (BitVec 16)) :
    decode (encodeChar c ++ rest) = c :: decode rest := by
  have hc := toNat_not_surrogate c
  rw [encodeChar, if_neg h]
  have hhigh : (BitVec.ofNat 16 (0xD800 + (c.toNat - 0x10000) / 0x400)).toNat =
      0xD800 + (c.toNat - 0x10000) / 0x400 := by
    rw [BitVec.toNat_ofNat, Nat.mod_eq_of_lt (by omega)]
  have hlow : (BitVec.ofNat 16 (0xDC00 + (c.toNat - 0x10000) % 0x400)).toNat =
      0xDC00 + (c.toNat - 0x10000) % 0x400 := by
    rw [BitVec.toNat_ofNat, Nat.mod_eq_of_lt (by omega)]
  simp only [List.cons_append, List.nil_append, decode, IsHigh, IsLow, hhigh, hlow]
  have hvalue : 0x10000 + (0xD800 + (c.toNat - 0x10000) / 0x400 - 0xD800) * 0x400 +
      (0xDC00 + (c.toNat - 0x10000) % 0x400 - 0xDC00) = c.toNat := by omega
  rw [if_pos (by omega), hvalue, Char.ofNat_toNat]

theorem map_unitChar_pair {c : Char} (h : ¬ c.toNat < 0x10000) :
    (encodeChar c).map unitChar = [Char.ofNat 0xFFFD, Char.ofNat 0xFFFD] := by
  have hc := toNat_not_surrogate c
  have hhigh : IsHigh (BitVec.ofNat 16 (0xD800 + (c.toNat - 0x10000) / 0x400)) := by
    rw [IsHigh, BitVec.toNat_ofNat, Nat.mod_eq_of_lt (by omega)]
    omega
  have hlow : IsLow (BitVec.ofNat 16 (0xDC00 + (c.toNat - 0x10000) % 0x400)) := by
    rw [IsLow, BitVec.toNat_ofNat, Nat.mod_eq_of_lt (by omega)]
    omega
  rw [encodeChar, if_neg h, List.map_cons, List.map_singleton, unitChar, unitChar,
    if_pos (.inl hhigh), if_pos (.inr hlow)]

/-- **A text survives its encoding.** -/
@[simp] theorem decode_encode (t : List Char) : decode (encode t) = t := by
  induction t with
  | nil => rfl
  | cons c t ih =>
    rw [encode_cons]
    by_cases h : c.toNat < 0x10000
    · obtain ⟨hchar, hhigh⟩ := unitChar_of_bmp h
      rw [encodeChar, if_pos h, List.singleton_append, decode_cons_of_not_high hhigh, hchar, ih]
    · rw [decode_pair h, ih]

theorem encode_injective {a b : List Char} (h : encode a = encode b) : a = b := by
  rw [← decode_encode a, h, decode_encode]

def Bmp (t : List Char) : Prop := ∀ c ∈ t, c.toNat < 0x10000

theorem map_unitChar_encode {t : List Char} (h : Bmp t) : (encode t).map unitChar = t := by
  induction t with
  | nil => rfl
  | cons c t ih =>
    have hc := h c List.mem_cons_self
    rw [encode_cons, List.map_append, ih (fun d hd => h d (List.mem_cons_of_mem _ hd)), encodeChar,
      if_pos hc, List.map_singleton, (unitChar_of_bmp hc).1, List.singleton_append]

/-! ## §2 Offsets -/

def unitLen (t : List Char) : Nat := (encode t).length

def byteLen (t : List Char) : Nat := (t.map Char.utf8Size).sum

@[simp] theorem unitLen_append (a b : List Char) : unitLen (a ++ b) = unitLen a + unitLen b := by
  simp [unitLen]

@[simp] theorem byteLen_append (a b : List Char) : byteLen (a ++ b) = byteLen a + byteLen b := by
  simp [byteLen]

@[simp] theorem byteLen_nil : byteLen [] = 0 := rfl

@[simp] theorem byteLen_cons (c : Char) (t : List Char) :
    byteLen (c :: t) = c.utf8Size + byteLen t := by
  simp [byteLen]

theorem length_encodeChar_pos (c : Char) : 0 < (encodeChar c).length := by
  unfold encodeChar
  split <;> simp

/-- The first `n` bytes, and what is behind them; `n` is a cut. -/
def takeBytes : List Char → Nat → List Char
  | [], _ => []
  | c :: t, n => if n = 0 then [] else c :: takeBytes t (n - c.utf8Size)

def dropBytes : List Char → Nat → List Char
  | [], _ => []
  | c :: t, n => if n = 0 then c :: t else dropBytes t (n - c.utf8Size)

@[simp] theorem takeBytes_zero (t : List Char) : takeBytes t 0 = [] := by
  cases t <;> simp [takeBytes]

@[simp] theorem dropBytes_zero (t : List Char) : dropBytes t 0 = t := by
  cases t <;> simp [dropBytes]

@[simp] theorem takeBytes_cut (a b : List Char) : takeBytes (a ++ b) (byteLen a) = a := by
  induction a with
  | nil => simp
  | cons c a ih =>
    have hpos := Char.utf8Size_pos c
    rw [List.cons_append, takeBytes, byteLen_cons, if_neg (by omega), Nat.add_sub_cancel_left, ih]

@[simp] theorem dropBytes_cut (a b : List Char) : dropBytes (a ++ b) (byteLen a) = b := by
  induction a with
  | nil => simp
  | cons c a ih =>
    have hpos := Char.utf8Size_pos c
    rw [List.cons_append, dropBytes, byteLen_cons, if_neg (by omega), Nat.add_sub_cancel_left, ih]

def ceilBoundary : List Char → Nat → Nat
  | [], _ => 0
  | c :: t, n => if n = 0 then 0 else c.utf8Size + ceilBoundary t (n - c.utf8Size)

/-- The byte offset of the first cut at or behind a unit offset. -/
def byteOffset : List Char → Nat → Nat
  | [], _ => 0
  | c :: t, units => if units = 0 then 0 else c.utf8Size + byteOffset t (units - (encodeChar c).length)

@[simp] theorem ceilBoundary_cut (a b : List Char) : ceilBoundary (a ++ b) (byteLen a) = byteLen a := by
  induction a with
  | nil => cases b <;> simp [ceilBoundary]
  | cons c a ih =>
    have hpos := Char.utf8Size_pos c
    rw [List.cons_append, ceilBoundary, byteLen_cons, if_neg (by omega), Nat.add_sub_cancel_left, ih]

@[simp] theorem byteOffset_cut (a b : List Char) : byteOffset (a ++ b) (unitLen a) = byteLen a := by
  induction a with
  | nil => cases b <;> simp [byteOffset, unitLen]
  | cons c a ih =>
    have hpos := length_encodeChar_pos c
    have hlen : unitLen (c :: a) = (encodeChar c).length + unitLen a := by simp [unitLen]
    rw [List.cons_append, byteOffset, hlen, if_neg (by omega), Nat.add_sub_cancel_left, ih,
      byteLen_cons]

theorem byteOffset_zero (t : List Char) : byteOffset t 0 = 0 := by
  cases t <;> simp [byteOffset]

theorem byteLen_eq_zero {t : List Char} : byteLen t = 0 ↔ t = [] := by
  cases t with
  | nil => simp
  | cons c t =>
    have hpos := Char.utf8Size_pos c
    simp only [byteLen_cons, reduceCtorEq, iff_false]
    omega

theorem le_ceilBoundary {t : List Char} {n : Nat} (h : n ≤ byteLen t) : n ≤ ceilBoundary t n := by
  induction t generalizing n with
  | nil => exact h
  | cons c t ih =>
    rw [byteLen_cons] at h
    rw [ceilBoundary]
    split
    case isTrue => omega
    case isFalse =>
      have := @ih (n - c.utf8Size) (by omega)
      omega

theorem byteLen_unitChars (t : List Char) :
    byteLen t ≤ byteLen ((encode t).map unitChar) ∧
      (¬ Bmp t → byteLen t < byteLen ((encode t).map unitChar)) := by
  induction t with
  | nil => exact ⟨Nat.le_refl _, fun h => absurd (fun c hc => nomatch hc) h⟩
  | cons c t ih =>
    rw [encode_cons, List.map_append, byteLen_append, byteLen_cons]
    by_cases hc : c.toNat < 0x10000
    · have hunits : (encodeChar c).map unitChar = [c] := by
        rw [encodeChar, if_pos hc, List.map_singleton, (unitChar_of_bmp hc).1]
      have hbmp : Bmp t → Bmp (c :: t) := fun h => List.forall_mem_cons.mpr ⟨hc, h⟩
      rw [hunits, byteLen_cons, byteLen_nil]
      refine ⟨by omega, fun h => ?_⟩
      have := ih.2 (mt hbmp h)
      omega
    · have hunits : byteLen ((encodeChar c).map unitChar) = 6 := by
        rw [map_unitChar_pair hc]
        rfl
      have hsize : c.utf8Size ≤ 4 := Char.utf8Size_le_four c
      rw [hunits]
      omega

def sliceBytes (t : List Char) (s e : Nat) : List Char := takeBytes (dropBytes t s) (e - s)

theorem sliceBytes_cut (a m b : List Char) :
    sliceBytes (a ++ m ++ b) (byteLen a) (byteLen a + byteLen m) = m := by
  rw [sliceBytes, List.append_assoc, dropBytes_cut, Nat.add_sub_cancel_left, takeBytes_cut]

def slice {α : Type} (xs : List α) (s e : Nat) : List α := (xs.drop s).take (e - s)

theorem slice_cut (a m b : List Char) :
    slice (encode (a ++ m ++ b)) (unitLen a) (unitLen a + unitLen m) = encode m := by
  have hdrop : (encode a ++ (encode m ++ encode b)).drop (unitLen a) = encode m ++ encode b :=
    List.drop_left
  have htake : (encode m ++ encode b).take (unitLen m) = encode m := List.take_left
  rw [slice, Nat.add_sub_cancel_left, encode_append, encode_append, List.append_assoc, hdrop, htake]

end Lib.Utf16
