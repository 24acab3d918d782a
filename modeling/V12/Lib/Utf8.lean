/-
V12.Lib.Utf8 — texts as UTF-8, and bytes read as UTF-8 with losses.

`lossy` reads bytes one by one; a byte that cannot continue a sequence ends it
with U+FFFD and begins another. Digits in a text are digits in its bytes, and
digits in what was read are digits in the bytes or the code units it was read
from.
-/
import V12.Lib.Utf16

namespace Lib.Utf8

/-! ## §1 Encoding -/

def bytes (t : List Char) : List Nat :=
  t.flatMap fun c => (String.utf8EncodeChar c).map UInt8.toNat

/-- `is_ascii_digit`. -/
def asciiDigit (b : Nat) : Bool := decide (48 ≤ b ∧ b ≤ 57)

theorem asciiDigit_iff {b : Nat} : asciiDigit b = true ↔ 48 ≤ b ∧ b ≤ 57 := decide_eq_true_iff

theorem isDigit_iff (c : Char) : c.isDigit = asciiDigit c.toNat := by
  have hval : c.val.toNat = c.toNat := rfl
  simp [Char.isDigit, asciiDigit, UInt32.le_iff_toNat_le, hval]

theorem bytes_cons (c : Char) (t : List Char) :
    bytes (c :: t) = (String.utf8EncodeChar c).map UInt8.toNat ++ bytes t := rfl

theorem encodeChar_cases (c : Char) :
    (c.toNat < 128 ∧ (String.utf8EncodeChar c).map UInt8.toNat = [c.toNat]) ∨
      (128 ≤ c.toNat ∧ ∃ b bs, (String.utf8EncodeChar c).map UInt8.toNat = b :: bs ∧ 128 ≤ b) := by
  have hval : c.val.toNat = c.toNat := rfl
  unfold String.utf8EncodeChar
  simp only [hval]
  split
  case isTrue h =>
    refine .inl ⟨by omega, ?_⟩
    simp only [List.map_cons, List.map_nil, UInt8.toNat_ofNat']
    rw [Nat.mod_eq_of_lt (by omega)]
  case isFalse h =>
    refine .inr ⟨by omega, ?_⟩
    split
    case isTrue =>
      refine ⟨_, _, rfl, ?_⟩
      rw [UInt8.toNat_ofNat']
      omega
    case isFalse =>
      split
      case isTrue =>
        refine ⟨_, _, rfl, ?_⟩
        rw [UInt8.toNat_ofNat']
        omega
      case isFalse =>
        refine ⟨_, _, rfl, ?_⟩
        rw [UInt8.toNat_ofNat']
        omega

theorem bytes_ascii {t : List Char} (h : ∀ c ∈ t, c.toNat < 128) : bytes t = t.map Char.toNat := by
  induction t with
  | nil => rfl
  | cons c t ih =>
    rw [bytes_cons, ih fun a ha => h a (List.mem_cons_of_mem c ha)]
    rcases encodeChar_cases c with ⟨-, hbytes⟩ | ⟨hlarge, -⟩
    · rw [hbytes]
      rfl
    · exact absurd (h c List.mem_cons_self) (Nat.not_lt.mpr hlarge)

theorem digits_of_bytes {t : List Char} (h : ∀ b ∈ bytes t, asciiDigit b = true) :
    ∀ c ∈ t, c.isDigit = true := by
  induction t with
  | nil => exact fun c hc => absurd hc List.not_mem_nil
  | cons c t ih =>
    rw [bytes_cons] at h
    have hrest := ih fun b hb => h b (List.mem_append_right _ hb)
    intro a ha
    rcases List.mem_cons.mp ha with rfl | ha
    · rcases encodeChar_cases a with ⟨-, hbytes⟩ | ⟨-, b, bs, hbytes, hlarge⟩
      · rw [isDigit_iff]
        exact h _ (List.mem_append_left _ (by rw [hbytes]; exact List.mem_cons_self))
      · have hb := h b (List.mem_append_left _ (by rw [hbytes]; exact List.mem_cons_self))
        rw [asciiDigit_iff] at hb
        omega
    · exact hrest a ha

/-! ## §2 Reading with losses -/

/-- A sequence that is not complete: how many bytes are missing, the bounds of the next one, and
the bits so far. -/
structure Pending where
  owed : Nat
  low : Nat
  high : Nat
  value : Nat

def replacement : Char := Char.ofNat 0xFFFD

/-- A byte between sequences: what it gives at once, and what it begins. -/
def begin (b : Nat) : List Char × Option Pending :=
  if b < 0x80 then ([Char.ofNat b], none)
  else if 0xC2 ≤ b ∧ b ≤ 0xDF then ([], some ⟨1, 0x80, 0xBF, b - 0xC0⟩)
  else if b = 0xE0 then ([], some ⟨2, 0xA0, 0xBF, 0⟩)
  else if b = 0xED then ([], some ⟨2, 0x80, 0x9F, 0xD⟩)
  else if 0xE1 ≤ b ∧ b ≤ 0xEF then ([], some ⟨2, 0x80, 0xBF, b - 0xE0⟩)
  else if b = 0xF0 then ([], some ⟨3, 0x90, 0xBF, 0⟩)
  else if b = 0xF4 then ([], some ⟨3, 0x80, 0x8F, 4⟩)
  else if 0xF1 ≤ b ∧ b ≤ 0xF3 then ([], some ⟨3, 0x80, 0xBF, b - 0xF0⟩)
  else ([replacement], none)

def lossyFrom : Option Pending → List Nat → List Char
  | none, [] => []
  | some _, [] => [replacement]
  | none, b :: rest => (begin b).1 ++ lossyFrom (begin b).2 rest
  | some p, b :: rest =>
    if p.low ≤ b ∧ b ≤ p.high then
      let value := p.value * 64 + (b - 0x80)
      if p.owed = 1 then Char.ofNat value :: lossyFrom none rest
      else lossyFrom (some ⟨p.owed - 1, 0x80, 0xBF, value⟩) rest
    else replacement :: (begin b).1 ++ lossyFrom (begin b).2 rest

/-- `String::from_utf8_lossy`. -/
def lossy (bs : List Nat) : List Char := lossyFrom none bs

theorem lossy_ascii {bs : List Nat} (h : ∀ b ∈ bs, b < 128) : lossy bs = bs.map Char.ofNat := by
  induction bs with
  | nil => rfl
  | cons b bs ih =>
    have hb : begin b = ([Char.ofNat b], none) := if_pos (h b List.mem_cons_self)
    have hrest := ih fun a ha => h a (List.mem_cons_of_mem b ha)
    unfold lossy at hrest ⊢
    rw [lossyFrom, hb, hrest]
    rfl

/-- The sequence will not give an ASCII character. -/
def Pending.Long (p : Pending) : Prop :=
  1 ≤ p.owed ∧ 0x80 ≤ p.low ∧ 2 ≤ if p.owed = 1 then p.value else p.value * 64 + (p.low - 0x80)

theorem long_begin {b : Nat} {p : Pending} (h : (begin b).2 = some p) : p.Long := by
  unfold begin at h
  repeat' split at h
  all_goals
    first
      | obtain rfl := Option.some.inj h
        simp [Pending.Long] <;> omega
      | cases h

theorem begin_of_none {b : Nat} (h : (begin b).2 = none) :
    begin b = ([Char.ofNat b], none) ∧ b < 0x80 ∨ begin b = ([replacement], none) := by
  grind [begin]

theorem not_isDigit_ofNat {n : Nat} (h : 128 ≤ n) : (Char.ofNat n).isDigit = false := by
  rw [isDigit_iff]
  unfold Char.ofNat
  by_cases hvalid : n.isValidChar
  · have hnat : (Char.ofNatAux n hvalid).toNat = n := rfl
    rw [dif_pos hvalid, hnat, asciiDigit, decide_eq_false_iff_not]
    omega
  · rw [dif_neg hvalid]
    rfl

theorem exists_not_digit {p : Pending} (hp : p.Long) (bs : List Nat) :
    ∃ c ∈ lossyFrom (some p) bs, c.isDigit = false := by
  induction bs generalizing p with
  | nil => exact ⟨replacement, List.mem_singleton_self _, not_isDigit_ofNat (by decide)⟩
  | cons b bs ih =>
    obtain ⟨howed, hlow, hvalue⟩ := hp
    rw [lossyFrom]
    split
    case isTrue hb =>
      dsimp only
      split
      case isTrue hone =>
        rw [if_pos hone] at hvalue
        exact ⟨_, List.mem_cons_self, not_isDigit_ofNat (by omega)⟩
      case isFalse hmany =>
        rw [if_neg hmany] at hvalue
        refine ih ⟨?_, ?_, ?_⟩
        · dsimp only
          omega
        · exact Nat.le_refl _
        · dsimp only
          split <;> omega
    case isFalse =>
      exact ⟨replacement, List.mem_append_left _ List.mem_cons_self, not_isDigit_ofNat (by decide)⟩

/-- **Digits that were read are digits in the bytes.** -/
theorem digits_of_lossy {bs : List Nat} (h : ∀ c ∈ lossy bs, c.isDigit = true) :
    ∀ b ∈ bs, asciiDigit b = true := by
  induction bs with
  | nil => exact fun b hb => absurd hb List.not_mem_nil
  | cons b bs ih =>
    unfold lossy at h ih
    rw [lossyFrom] at h
    have hfirst : (begin b).2 = none := by
      by_contra hsome
      obtain ⟨p, hp⟩ := Option.ne_none_iff_exists'.mp hsome
      rw [hp] at h
      obtain ⟨c, hc, hdigit⟩ := exists_not_digit (long_begin hp) bs
      rw [h c (List.mem_append_right _ hc)] at hdigit
      cases hdigit
    rw [hfirst] at h
    have hrest := ih fun c hc => h c (List.mem_append_right _ hc)
    intro a ha
    rcases List.mem_cons.mp ha with rfl | ha
    · rcases begin_of_none hfirst with ⟨hbegin, hascii⟩ | hbegin
      · rw [hbegin] at h
        have hdigit := h (Char.ofNat a) (List.mem_append_left _ List.mem_cons_self)
        rw [isDigit_iff] at hdigit
        have hnat : (Char.ofNat a).toNat = a := by
          rw [Char.ofNat, dif_pos (.inl (by omega))]
          rfl
        rwa [hnat] at hdigit
      · rw [hbegin] at h
        have hdigit := h replacement (List.mem_append_left _ List.mem_cons_self)
        rw [replacement, not_isDigit_ofNat (by decide)] at hdigit
        cases hdigit
    · exact hrest a ha

/-! ## §3 Code units -/

open Lib.Utf16

theorem decode_ascii {us : List (BitVec 16)} (h : ∀ u ∈ us, u.toNat < 128) :
    decode us = us.map fun u => Char.ofNat u.toNat := by
  induction us with
  | nil => rfl
  | cons u us ih =>
    have hu := h u List.mem_cons_self
    have hhigh : ¬ IsHigh u := fun hh => absurd hh.1 (by omega)
    have hlow : ¬ IsLow u := fun hl => absurd hl.1 (by omega)
    rw [decode_cons_of_not_high hhigh, ih fun w hw => h w (List.mem_cons_of_mem u hw), unitChar,
      if_neg (not_or.mpr ⟨hhigh, hlow⟩)]
    rfl

theorem isDigit_unitChar {u : BitVec 16} (h : (unitChar u).isDigit = true) :
    asciiDigit u.toNat = true := by
  by_cases hlarge : 128 ≤ u.toNat
  · unfold unitChar at h
    split at h
    · cases h
    · rw [not_isDigit_ofNat hlarge] at h
      cases h
  · have hmem : ∀ w ∈ [u], w.toNat < 128 := by
      intro w hw
      rw [List.mem_singleton.mp hw]
      omega
    have hsingle := decode_ascii hmem
    have hchar : unitChar u = Char.ofNat u.toNat := (List.cons.inj hsingle).1
    have hnat : (Char.ofNat u.toNat).toNat = u.toNat := by
      rw [Char.ofNat, dif_pos (.inl (by omega))]
      rfl
    rwa [hchar, isDigit_iff, hnat] at h

theorem digits_of_decode {us : List (BitVec 16)} (h : ∀ c ∈ decode us, c.isDigit = true) :
    ∀ u ∈ us, asciiDigit u.toNat = true := by
  induction us using decode.induct with
  | case1 => exact fun u hu => absurd hu List.not_mem_nil
  | case2 u =>
    intro w hw
    rw [List.mem_singleton.mp hw]
    exact isDigit_unitChar (h _ (List.mem_singleton_self _))
  | case3 u w rest hpair ih =>
    rw [decode, if_pos hpair] at h
    have hdigit := h _ List.mem_cons_self
    rw [not_isDigit_ofNat (by omega)] at hdigit
    cases hdigit
  | case4 u w rest hpair ih =>
    rw [decode, if_neg hpair] at h
    have hrest := ih fun c hc => h c (List.mem_cons_of_mem _ hc)
    intro v hv
    rcases List.mem_cons.mp hv with rfl | hv
    · exact isDigit_unitChar (h _ List.mem_cons_self)
    · exact hrest v hv

end Lib.Utf8
