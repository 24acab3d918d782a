/-
V12.Interp.ArrayIndexTheorems — the array indices that the classifiers see.

Over the codes of a text the three text classifiers are one function with more
or fewer checks (`propKeyIndex_eq`, `propKeyAsIndex_eq`, `jsonIndex_eq`). A
number's text has nothing but digits exactly if the number is whole and not
negative (`numberText_iff`). `classified_iff` puts the two together.
-/
import V12.Interp.ArrayIndex

namespace V12.Interp

open V12.Heap V12.Heap.JsValue Lib.Binary64 Lib.Decimal Lib.Utf8

/-! ## §1 Digits -/

section Digits

variable {ds : List Char}

theorem ofDigitChars_lt (h : ∀ c ∈ ds, c.isDigit = true) :
    Nat.ofDigitChars 10 ds 0 < 10 ^ ds.length := by
  induction ds using List.reverseRecOn with
  | nil => decide
  | append_singleton ds c ih =>
    have hc := h c (List.mem_append_right _ (List.mem_singleton_self c))
    rw [isDigit_iff, asciiDigit_iff] at hc
    have hrest := ih fun a ha => h a (List.mem_append_left _ ha)
    rw [Nat.ofDigitChars_append, Nat.ofDigitChars_cons, Nat.ofDigitChars_nil, List.length_append,
      List.length_singleton, Nat.pow_succ]
    have hzero : '0'.toNat = 48 := rfl
    omega

theorem head_toDigits {n : Nat} (hn : n ≠ 0) : (Nat.toDigits 10 n).head? ≠ some '0' := by
  intro hhead
  obtain ⟨rest, hrest⟩ := List.head?_eq_some_iff.mp hhead
  have hdigits := isDigit_toDigits n
  have hvalue : Nat.ofDigitChars 10 (Nat.toDigits 10 n) 0 = n := Nat.ofDigitChars_ten_toDigits
  rw [hrest] at hdigits hvalue
  have hlt := ofDigitChars_lt fun c hc => hdigits c (List.mem_cons_of_mem _ hc)
  have hlow := pow_le_of_len hn
  have hlen : len n = rest.length + 1 := by
    rw [len, hrest, List.length_cons]
  rw [Nat.ofDigitChars_cons] at hvalue
  have hzero : 10 * 0 + ('0'.toNat - '0'.toNat) = 0 := rfl
  rw [hzero] at hvalue
  rw [hlen, Nat.add_sub_cancel] at hlow
  omega

/-- **Digits without a leading zero are the text of their value.** -/
theorem toDigits_ofDigitChars (h : ∀ c ∈ ds, c.isDigit = true) (hne : ds ≠ [])
    (hhead : ds.length = 1 ∨ ds.head? ≠ some '0') :
    Nat.toDigits 10 (Nat.ofDigitChars 10 ds 0) = ds := by
  induction ds using List.reverseRecOn with
  | nil => exact absurd rfl hne
  | append_singleton ds c ih =>
    have hc := h c (List.mem_append_right _ (List.mem_singleton_self c))
    rw [isDigit_iff, asciiDigit_iff] at hc
    have hzero : '0'.toNat = 48 := rfl
    have hlt : c.toNat - '0'.toNat < 10 := by omega
    have hlast : Nat.toDigits 10 (c.toNat - '0'.toNat) = [c] := by
      rw [Nat.toDigits_of_lt_base hlt]
      refine congrArg (fun a => [a]) (char_ext ?_)
      rw [Nat.toNat_digitChar_of_lt_ten hlt]
      omega
    rw [Nat.ofDigitChars_append, Nat.ofDigitChars_cons, Nat.ofDigitChars_nil]
    cases ds with
    | nil =>
      rw [Nat.ofDigitChars_nil, Nat.mul_zero, Nat.zero_add, hlast]
      rfl
    | cons d ds =>
      have hd : d ≠ '0' := by
        rintro rfl
        rcases hhead with hone | hnot
        · simp at hone
        · exact hnot rfl
      have hrest := ih (fun a ha => h a (List.mem_append_left _ ha)) (List.cons_ne_nil _ _)
        (.inr fun heq => hd (Option.some.inj heq))
      have hpos : 0 < Nat.ofDigitChars 10 (d :: ds) 0 := by
        refine Nat.pos_of_ne_zero fun h0 => ?_
        rw [h0, Nat.toDigits_zero] at hrest
        exact hd (List.cons.inj hrest).1.symm
      rw [← Nat.toDigits_append_toDigits (by decide) hpos hlt, hrest, hlast]

end Digits

/-! ## §2 The loops -/

def codesValue (cs : List Nat) : Nat := cs.foldl (fun acc b => acc * 10 + (b - 48)) 0

/-- The index that the loop finds, without the checks of the engine. -/
def indexOf (cs : List Nat) : Option Nat :=
  if cs = [] ∨ cs.length > 10 then none else scanBytes cs 0

section Scan

variable {cs : List Nat} {i : Nat}

theorem le_fold (cs : List Nat) (acc : Nat) :
    acc ≤ cs.foldl (fun acc b => acc * 10 + (b - 48)) acc := by
  induction cs generalizing acc with
  | nil => exact Nat.le_refl _
  | cons b cs ih =>
    have := ih (acc * 10 + (b - 48))
    rw [List.foldl_cons]
    omega

theorem scanBytes_iff (cs : List Nat) {acc : Nat} (hacc : acc < u32Limit) :
    scanBytes cs acc = some i ↔ (∀ b ∈ cs, asciiDigit b = true) ∧
      cs.foldl (fun acc b => acc * 10 + (b - 48)) acc = i ∧ i < u32Limit := by
  induction cs generalizing acc with
  | nil =>
    rw [scanBytes, Option.some_inj, List.foldl_nil]
    constructor
    · rintro rfl
      exact ⟨fun b hb => absurd hb List.not_mem_nil, rfl, hacc⟩
    · exact fun h => h.2.1
  | cons b cs ih =>
    rw [scanBytes, List.foldl_cons, List.forall_mem_cons]
    by_cases hb : asciiDigit b = true
    · rw [if_pos hb]
      by_cases hfits : acc * 10 + (b - 48) < u32Limit
      · rw [pushDigit, if_pos ⟨by omega, hfits⟩, Option.bind_some, ih hfits]
        simp [hb]
      · have hle := le_fold cs (acc * 10 + (b - 48))
        rw [pushDigit, if_neg (fun h => hfits h.2), Option.bind_none]
        refine iff_of_false (by simp) fun h => ?_
        omega
    · rw [if_neg hb]
      exact iff_of_false (by simp) fun h => hb h.1.1

theorem scanUnits_eq (us : List (BitVec 16)) (acc : Nat) :
    scanUnits us acc = scanBytes (us.map BitVec.toNat) acc := by
  induction us generalizing acc with
  | nil => rfl
  | cons u us ih =>
    rw [scanUnits, List.map_cons, scanBytes]
    by_cases hu : asciiDigit u.toNat = true
    · have hrange := asciiDigit_iff.mp hu
      have hmod : u.toNat % 256 = u.toNat := Nat.mod_eq_of_lt (by omega)
      have hnot : ¬ (u.toNat > 127 ∨ asciiDigit (u.toNat % 256) = false) := by
        rw [hmod, hu]
        simp
        omega
      rw [if_neg hnot, if_pos hu, hmod]
      exact congrArg _ (funext fun a => ih a)
    · have hbad : u.toNat > 127 ∨ asciiDigit (u.toNat % 256) = false := by
        by_cases hlarge : u.toNat > 127
        · exact .inl hlarge
        · rw [Nat.mod_eq_of_lt (by omega)]
          exact .inr (Bool.eq_false_iff.mpr hu)
      rw [if_pos hbad, if_neg hu]

theorem indexOf_iff : indexOf cs = some i ↔ cs ≠ [] ∧ cs.length ≤ 10 ∧
    (∀ b ∈ cs, asciiDigit b = true) ∧ codesValue cs = i ∧ i < u32Limit := by
  unfold indexOf
  by_cases h : cs = [] ∨ cs.length > 10
  · rw [if_pos h]
    refine iff_of_false (by simp) fun hnot => ?_
    rcases h with hnil | hlong
    · exact hnot.1 hnil
    · omega
  · rw [if_neg h, scanBytes_iff cs (by decide)]
    obtain ⟨hne, hlen⟩ := not_or.mp h
    exact ⟨fun hscan => ⟨hne, by omega, hscan⟩, fun hscan => hscan.2.2⟩

theorem indexOf_of_not_digits (h : ¬ ∀ b ∈ cs, asciiDigit b = true) : indexOf cs = none := by
  cases hindex : indexOf cs with
  | none => rfl
  | some i => exact absurd (indexOf_iff.mp hindex).2.2.1 h

end Scan

/-! ## §3 The classifiers of texts -/

/-- A text read from code units: digits stay what they are, anything else stays no digit. -/
structure ReadFrom (t : List Char) (cs : List Nat) : Prop where
  digits : (∀ b ∈ cs, asciiDigit b = true) → t = cs.map Char.ofNat ∧ bytes t = cs
  other : (∀ b ∈ bytes t, asciiDigit b = true) → ∀ b ∈ cs, asciiDigit b = true

section Texts

variable {t : List Char} {cs : List Nat} {key : StrStorage} {u : List (BitVec 16)}

theorem ofNat_digits {cs : List Nat} (h : ∀ b ∈ cs, asciiDigit b = true) :
    bytes (cs.map Char.ofNat) = cs := by
  have hnat : ∀ b ∈ cs, (Char.ofNat b).toNat = b := by
    intro b hb
    have := asciiDigit_iff.mp (h b hb)
    exact toNat_ofNat (by omega)
  rw [bytes_ascii, List.map_map]
  · exact (List.map_congr_left hnat).trans (List.map_id cs)
  · intro c hc
    obtain ⟨b, hb, rfl⟩ := List.mem_map.mp hc
    have := asciiDigit_iff.mp (h b hb)
    rw [hnat b hb]
    omega

theorem readFrom_decode (u : List (BitVec 16)) :
    ReadFrom (Lib.Utf16.decode u) (u.map BitVec.toNat) := by
  constructor
  · intro h
    have hascii : Lib.Utf16.decode u = (u.map BitVec.toNat).map Char.ofNat := by
      rw [List.map_map]
      refine decode_ascii fun w hw => ?_
      have := asciiDigit_iff.mp (h _ (List.mem_map_of_mem hw))
      omega
    rw [hascii]
    exact ⟨rfl, ofNat_digits h⟩
  · intro h b hb
    obtain ⟨w, hw, rfl⟩ := List.mem_map.mp hb
    exact digits_of_decode (digits_of_bytes h) w hw

theorem readFrom_lossy (bs : List Nat) : ReadFrom (lossy bs) bs := by
  constructor
  · intro h
    have hascii : lossy bs = bs.map Char.ofNat := lossy_ascii fun b hb => by
      have := asciiDigit_iff.mp (h b hb)
      omega
    rw [hascii]
    exact ⟨rfl, ofNat_digits h⟩
  · exact fun h => digits_of_lossy (digits_of_bytes h)

theorem ReadFrom.scan (h : ReadFrom t cs) (hdigits : ∀ b ∈ cs, asciiDigit b = true) :
    (t = [] ↔ cs = []) ∧ bytes t = cs := by
  obtain ⟨rfl, hbytes⟩ := h.digits hdigits
  exact ⟨List.map_eq_nil_iff, hbytes⟩

theorem map_widen (bs : List (BitVec 8)) :
    (bs.map widen).map BitVec.toNat = bs.map BitVec.toNat := by
  rw [List.map_map]
  refine List.map_congr_left fun b _ => ?_
  have hlt := b.isLt
  exact (BitVec.toNat_setWidth ..).trans (Nat.mod_eq_of_lt (by omega))

theorem storageText_eq (hu : key.flatUnits = some u) :
    ∃ t, storageText key = some t ∧ ReadFrom t (u.map BitVec.toNat) := by
  cases key with
  | latin1 bs =>
    obtain rfl : bs.map widen = u := Option.some.inj hu
    rw [map_widen]
    exact ⟨_, rfl, readFrom_lossy _⟩
  | utf16 us =>
    obtain rfl : us = u := Option.some.inj hu
    exact ⟨_, rfl, readFrom_decode us⟩
  | cons l r n => cases hu
  | sliced p s n => cases hu

theorem arrayIndexOf_eq (hu : key.flatUnits = some u) :
    arrayIndexOf (.string key) = indexOf (u.map BitVec.toNat) := by
  cases key with
  | latin1 bs =>
    obtain rfl : bs.map widen = u := Option.some.inj hu
    rw [map_widen, arrayIndexOf, indexOf]
    simp only [List.map_eq_nil_iff, List.length_map]
  | utf16 us =>
    obtain rfl : us = u := Option.some.inj hu
    rw [arrayIndexOf, indexOf]
    simp only [List.map_eq_nil_iff, List.length_map, scanUnits_eq]
  | cons l r n => cases hu
  | sliced p s n => cases hu

theorem propKeyIndex_eq (hu : key.flatUnits = some u) :
    propKeyIndex key = indexOf (u.map BitVec.toNat) := by
  have hread := readFrom_decode u
  unfold propKeyIndex
  rw [hu]
  change (if _ then _ else _) = _
  by_cases hdigits : ∀ b ∈ u.map BitVec.toNat, asciiDigit b = true
  · obtain ⟨hnil, hbytes⟩ := hread.scan hdigits
    simp only [hnil, hbytes]
    rfl
  · rw [indexOf_of_not_digits hdigits]
    split
    · rfl
    · cases hscan : scanBytes (bytes (Lib.Utf16.decode u)) 0 with
      | none => rfl
      | some i => exact absurd (hread.other ((scanBytes_iff _ (by decide)).mp hscan).1) hdigits

def Leading (cs : List Nat) : Prop := cs.length > 1 ∧ cs.head? = some 48

instance (cs : List Nat) : Decidable (Leading cs) := inferInstanceAs (Decidable (_ ∧ _))

theorem propKeyAsIndex_eq (hu : key.flatUnits = some u) (i : Nat) :
    propKeyAsIndex key = some i ↔
      ¬ Leading (u.map BitVec.toNat) ∧ indexOf (u.map BitVec.toNat) = some i := by
  obtain ⟨t, htext, hread⟩ := storageText_eq hu
  unfold propKeyAsIndex
  rw [htext]
  change (if _ then _ else _) = _ ↔ _
  by_cases hdigits : ∀ b ∈ u.map BitVec.toNat, asciiDigit b = true
  · obtain ⟨hnil, hbytes⟩ := hread.scan hdigits
    have hall : (u.map BitVec.toNat).all asciiDigit = true := List.all_eq_true.mpr hdigits
    simp only [hnil, hbytes, hall, Bool.true_eq_false, or_false]
    change _ ↔ ¬ Leading _ ∧ (if _ then none else _) = some i
    by_cases hempty : u.map BitVec.toNat = [] ∨ (u.map BitVec.toNat).length > 10
    · rw [if_pos hempty, if_pos hempty]
      simp
    · rw [if_neg hempty, if_neg hempty]
      change (if Leading _ then _ else _) = _ ↔ _
      split
      case isTrue h => simp [h]
      case isFalse h => simp [h]
  · rw [indexOf_of_not_digits hdigits]
    have hbad : (bytes t).all asciiDigit = false := by
      rw [← Bool.not_eq_true, List.all_eq_true]
      exact fun h => hdigits (hread.other h)
    rw [if_pos (.inr (.inr hbad))]
    simp

theorem jsonIndex_eq (hu : key.flatUnits = some u) (i : Nat) :
    jsonIndex key = some i ↔ i ≠ 4294967295 ∧
      ¬ Leading (u.map BitVec.toNat) ∧ indexOf (u.map BitVec.toNat) = some i := by
  obtain ⟨t, htext, hread⟩ := storageText_eq hu
  unfold jsonIndex arrayIndex
  rw [htext, Option.getD_some]
  by_cases hdigits : ∀ b ∈ u.map BitVec.toNat, asciiDigit b = true
  · obtain ⟨hnil, hbytes⟩ := hread.scan hdigits
    have hall : (u.map BitVec.toNat).all asciiDigit = true := List.all_eq_true.mpr hdigits
    have hhead : t.head? = some '0' ↔ (u.map BitVec.toNat).head? = some 48 := by
      obtain ⟨rfl, -⟩ := hread.digits hdigits
      cases u with
      | nil => simp
      | cons w ws =>
        have hw := asciiDigit_iff.mp (hdigits w.toNat List.mem_cons_self)
        rw [List.map_cons, List.map_cons, List.head?_cons, List.head?_cons, Option.some_inj,
          Option.some_inj]
        constructor
        · intro h
          have := congrArg Char.toNat h
          rwa [toNat_ofNat (by omega)] at this
        · intro h
          rw [h]
    simp only [hnil, hbytes, hall, hhead, Bool.true_eq_false, or_false]
    change _ ↔ _ ∧ ¬ Leading _ ∧ (if _ then none else _) = some i
    by_cases hempty : u.map BitVec.toNat = [] ∨ (u.map BitVec.toNat).length > 10
    · rw [if_pos hempty, if_pos hempty]
      simp
    · rw [if_neg hempty, if_neg hempty]
      change (if Leading _ then _ else _) = _ ↔ _
      split
      case isTrue h => simp [h]
      case isFalse h =>
        cases scanBytes (u.map BitVec.toNat) 0 with
        | none => simp
        | some n =>
          rw [Option.bind_some, Option.some_inj]
          split
          case isTrue hmax =>
            refine iff_of_false (by simp) fun hn => ?_
            exact hn.1 (hn.2.2.symm.trans hmax)
          case isFalse hmax =>
            rw [Option.some_inj]
            exact ⟨fun hn => ⟨hn ▸ hmax, h, hn⟩, fun hn => hn.2.2⟩
  · rw [indexOf_of_not_digits hdigits]
    have hbad : (bytes t).all asciiDigit = false := by
      rw [← Bool.not_eq_true, List.all_eq_true]
      exact fun h => hdigits (hread.other h)
    rw [if_pos (.inr (.inr hbad))]
    simp

end Texts

/-! ## §4 Texts of indices -/

section Indices

variable {u : List (BitVec 16)} {t : List Char} {i : Nat}

theorem codes_unit (h : ∀ c ∈ t, c.toNat < 128) :
    (t.map unit).map BitVec.toNat = t.map Char.toNat := by
  rw [List.map_map]
  refine List.map_congr_left fun c hc => ?_
  change (BitVec.ofNat 16 c.toNat).toNat = c.toNat
  have := h c hc
  rw [BitVec.toNat_ofNat, Nat.mod_eq_of_lt (by omega)]

theorem ascii_of_digits (h : ∀ c ∈ t, c.isDigit = true) : Ascii t := by
  intro c hc
  have := h c hc
  rw [isDigit_iff, asciiDigit_iff] at this
  omega

theorem codes_toDigits (i : Nat) :
    (∀ b ∈ (Nat.toDigits 10 i).map Char.toNat, asciiDigit b = true) ∧
      codesValue ((Nat.toDigits 10 i).map Char.toNat) = i ∧
      ¬ Leading ((Nat.toDigits 10 i).map Char.toNat) := by
  refine ⟨fun b hb => ?_, ?_, ?_⟩
  · obtain ⟨c, hc, rfl⟩ := List.mem_map.mp hb
    rw [← isDigit_iff]
    exact isDigit_toDigits i c hc
  · rw [codesValue, List.foldl_map]
    have hvalue : Nat.ofDigitChars 10 (Nat.toDigits 10 i) 0 = i := Nat.ofDigitChars_ten_toDigits
    rw [Nat.ofDigitChars_eq_foldl] at hvalue
    simp only [Nat.mul_comm 10] at hvalue
    exact hvalue
  · rintro ⟨hlen, hhead⟩
    rw [List.head?_map] at hhead
    obtain ⟨c, hc, hcode⟩ := Option.map_eq_some_iff.mp hhead
    obtain rfl : c = '0' := char_ext hcode
    by_cases hi : i = 0
    · rw [hi, Nat.toDigits_zero] at hlen
      exact absurd hlen (by decide)
    · exact head_toDigits hi hc

theorem exists_toDigits (hdigits : ∀ c ∈ u, asciiDigit c.toNat = true) (hne : u ≠ [])
    (hhead : ¬ Leading (u.map BitVec.toNat)) :
    u = (Nat.toDigits 10 (codesValue (u.map BitVec.toNat))).map unit := by
  have hnat : ∀ c ∈ u, (Char.ofNat c.toNat).toNat = c.toNat := by
    intro c hc
    have := asciiDigit_iff.mp (hdigits c hc)
    exact toNat_ofNat (by omega)
  have hunit : u = (u.map fun c => Char.ofNat c.toNat).map unit := by
    rw [List.map_map]
    refine (List.map_id u).symm.trans (List.map_congr_left fun c hc => ?_)
    change c = BitVec.ofNat 16 (Char.ofNat c.toNat).toNat
    rw [hnat c hc, BitVec.ofNat_toNat, BitVec.setWidth_eq]
  have hchars : ∀ a ∈ u.map (fun c => Char.ofNat c.toNat), a.isDigit = true := by
    intro a ha
    obtain ⟨c, hc, rfl⟩ := List.mem_map.mp ha
    rw [isDigit_iff, hnat c hc]
    exact hdigits c hc
  have hvalue : Nat.ofDigitChars 10 (u.map fun c => Char.ofNat c.toNat) 0 =
      codesValue (u.map BitVec.toNat) := by
    rw [Nat.ofDigitChars_eq_foldl, codesValue, List.foldl_map, List.foldl_map]
    refine List.foldl_ext _ _ 0 fun acc c hc => ?_
    rw [hnat c hc, Nat.mul_comm]
    rfl
  have htext := toDigits_ofDigitChars hchars (by simpa using hne) ?_
  · rw [hvalue] at htext
    rw [htext]
    exact hunit
  · rcases Nat.lt_or_ge 1 u.length with hlong | hshort
    · refine .inr fun hzero => hhead ⟨by rwa [List.length_map], ?_⟩
      rw [List.head?_map] at hzero ⊢
      obtain ⟨c, hc, hchar⟩ := Option.map_eq_some_iff.mp hzero
      have hcode := hnat c (List.mem_of_mem_head? hc)
      rw [hchar] at hcode
      rw [hc, Option.map_some, ← hcode]
      rfl
    · refine .inl ?_
      rw [List.length_map]
      have := List.length_pos_iff.mpr hne
      omega

/-- **What the loop finds**: without a leading zero it is the number of the text. -/
theorem indexOf_text (hhead : ¬ Leading (u.map BitVec.toNat)) :
    indexOf (u.map BitVec.toNat) = some i ↔
      i < u32Limit ∧ u = (Nat.toDigits 10 i).map unit := by
  rw [indexOf_iff]
  constructor
  · rintro ⟨hne, -, hdigits, rfl, hlt⟩
    refine ⟨hlt, exists_toDigits (fun c hc => hdigits _ (List.mem_map_of_mem hc)) ?_ hhead⟩
    rintro rfl
    exact hne rfl
  · rintro ⟨hlt, rfl⟩
    obtain ⟨hdigits, hvalue, -⟩ := codes_toDigits i
    have hlen : len i ≤ 10 := (Nat.length_toDigits_le_iff (by decide) (by decide)).mpr
      (by unfold u32Limit at hlt; omega)
    rw [codes_unit (ascii_of_digits (isDigit_toDigits i)), List.length_map]
    exact ⟨by simp, hlen, hdigits, hvalue, hlt⟩

theorem indexOf_leadingZero (h : LeadingZero u) :
    Leading (u.map BitVec.toNat) ∧ ∃ i, indexOf (u.map BitVec.toNat) = some i := by
  obtain ⟨hlong, hshort, hdigits, hhead⟩ := h
  obtain ⟨rest, rfl⟩ := List.head?_eq_some_iff.mp hhead
  have hall : ∀ b ∈ (unit '0' :: rest).map BitVec.toNat, asciiDigit b = true := by
    intro b hb
    obtain ⟨c, hc, rfl⟩ := List.mem_map.mp hb
    exact hdigits c hc
  refine ⟨⟨by rwa [List.length_map], rfl⟩, codesValue _, indexOf_iff.mpr ⟨by simp, ?_, hall, rfl, ?_⟩⟩
  · rwa [List.length_map]
  · -- nine digits are left
    have hrest : ∀ b ∈ rest.map BitVec.toNat, asciiDigit b = true := fun b hb =>
      hall b (List.mem_cons_of_mem _ hb)
    have hbound : ∀ cs : List Nat, (∀ b ∈ cs, asciiDigit b = true) → codesValue cs < 10 ^ cs.length := by
      intro cs hcs
      induction cs using List.reverseRecOn with
      | nil => decide
      | append_singleton cs b ih =>
        have hb := asciiDigit_iff.mp (hcs b (List.mem_append_right _ (List.mem_singleton_self b)))
        have := ih fun a ha => hcs a (List.mem_append_left _ ha)
        rw [codesValue, List.foldl_append, List.foldl_cons, List.foldl_nil, List.length_append,
          List.length_singleton, Nat.pow_succ]
        unfold codesValue at this
        omega
    have hlt := hbound _ hrest
    have hpow : 10 ^ (rest.map BitVec.toNat).length ≤ 10 ^ 9 :=
      Nat.pow_le_pow_right (by decide) (by
        rw [List.length_map]
        rw [List.length_cons] at hshort
        omega)
    have hzero : codesValue ((unit '0' :: rest).map BitVec.toNat) =
        codesValue (rest.map BitVec.toNat) := rfl
    rw [hzero, u32Limit]
    omega

end Indices

/-- **But for two kinds of text all classifiers answer alike.** -/
theorem answer_of_canonical {key : StrStorage} {u : List (BitVec 16)}
    (hu : key.flatUnits = some u) (hzero : ¬ LeadingZero u)
    (hmax : u ≠ (Nat.toDigits 10 4294967295).map unit) (i : Nat) :
    (indexOf (u.map BitVec.toNat) = some i ↔ ∃ t, u = t.map unit ∧ IsArrayIndex t i) ∧
      (propKeyAsIndex key = some i ↔ ∃ t, u = t.map unit ∧ IsArrayIndex t i) ∧
      (jsonIndex key = some i ↔ ∃ t, u = t.map unit ∧ IsArrayIndex t i) := by
  have hhead : indexOf (u.map BitVec.toNat) = some i → ¬ Leading (u.map BitVec.toNat) := by
    rintro hi ⟨hlong, hfirst⟩
    obtain ⟨-, hshort, hdigits, -⟩ := indexOf_iff.mp hi
    rw [List.length_map] at hlong hshort
    refine hzero ⟨hlong, hshort, fun c hc => hdigits _ (List.mem_map_of_mem hc), ?_⟩
    rw [List.head?_map] at hfirst
    obtain ⟨c, hc, hcode⟩ := Option.map_eq_some_iff.mp hfirst
    rw [hc]
    exact congrArg some (BitVec.eq_of_toNat_eq hcode)
  have hindex : indexOf (u.map BitVec.toNat) = some i ↔
      ∃ t, u = t.map unit ∧ IsArrayIndex t i := by
    constructor
    · intro hi
      obtain ⟨hlt, rfl⟩ := (indexOf_text (hhead hi)).mp hi
      unfold u32Limit at hlt
      refine ⟨_, rfl, ?_, rfl⟩
      by_contra hge
      obtain rfl : i = 4294967295 := by omega
      exact hmax rfl
    · rintro ⟨t, rfl, hlt, rfl⟩
      have hnot := (codes_toDigits i).2.2
      rw [← codes_unit (ascii_of_digits (isDigit_toDigits i))] at hnot
      exact (indexOf_text hnot).mpr ⟨by unfold u32Limit; omega, rfl⟩
  have hne : indexOf (u.map BitVec.toNat) = some i → i ≠ 4294967295 := by
    intro h heq
    obtain ⟨t, -, hlt, -⟩ := hindex.mp h
    omega
  refine ⟨hindex, ?_, ?_⟩
  · rw [propKeyAsIndex_eq hu, ← hindex]
    exact ⟨fun h => h.2, fun h => ⟨hhead h, h⟩⟩
  · rw [jsonIndex_eq hu, ← hindex]
    exact ⟨fun h => h.2.2, fun h => ⟨hne h, hhead h, h⟩⟩

/-! ## §5 Numbers -/

section Numbers

variable {x : BitVec 64} {t : List Char}

theorem NumberDigits.shortest {n : Int} {k s : Nat} (h : NumberDigits x n k s) (hfin : IsFinite x)
    (hpos : negative x = false) : IsShortest (units x) s (n - k) ∧ len s = k := by
  have hvalue : ∀ m e, scaled false m e = x ↔ rounded m e = units x := by
    intro m e
    rw [← hpos]
    exact scaled_eq_iff hfin m e
  have hs : s ≠ 0 := Nat.ne_of_gt (Nat.lt_of_lt_of_le (Nat.pow_pos (by decide)) h.low)
  have hlen := len_eq h.low (by rw [Nat.sub_add_cancel h.one_le]; exact h.high)
  rw [Nat.sub_add_cancel h.one_le] at hlen
  refine ⟨⟨hs, (hvalue _ _).mp h.value, fun s' e' hs' hr' => ?_⟩, hlen⟩
  rw [hlen]
  refine h.least (e' + len s') (len s') s' (len_pos s') (pow_le_of_len hs') (lt_pow_len s') ?_
  rw [add_sub_cancel_right, hvalue]
  exact hr'

theorem digits_text (h : NumberToString x t) (hdigits : ∀ c ∈ t, c.isDigit = true) :
    IsFinite x ∧ ((units x = 0 ∧ t = Nat.toDigits 10 0) ∨
      (negative x = false ∧ ∃ s, ∃ j : Nat, t = Nat.toDigits 10 (s * 10 ^ j) ∧
        rounded s j = units x)) := by
  have hnot : ∀ c, c ∈ t → c.isDigit = false → False := by
    intro c hc hfalse
    rw [hdigits c hc] at hfalse
    cases hfalse
  cases h with
  | nan => exact (hnot 'N' (by decide) rfl).elim
  | zero hfin hzero => exact ⟨hfin, .inl ⟨hzero, rfl⟩⟩
  | negative => exact (hnot '-' List.mem_cons_self rfl).elim
  | infinity => exact (hnot 'I' (by decide) rfl).elim
  | @finite _ n k s hfin hne hpos hn =>
    obtain ⟨hshort, hlen⟩ := hn.shortest hfin hpos
    by_cases hrange : -5 ≤ n ∧ n ≤ 21
    · by_cases hk : (k : Int) ≤ n
      · obtain ⟨j, hj⟩ := Int.eq_ofNat_of_zero_le (Int.sub_nonneg_of_le hk)
        have hr := hshort.rounds
        rw [hj] at hr
        refine ⟨hfin, .inr ⟨hpos, s, j, ?_, hr⟩⟩
        rw [layout, if_pos hrange, if_pos hk, hj, zeros, Int.toNat_natCast,
          toDigits_mul_pow hshort.pos]
      · refine (hnot '.' ?_ rfl).elim
        rw [layout, if_pos hrange, if_neg hk]
        split <;> simp
    · refine (hnot 'e' ?_ rfl).elim
      rw [layout, if_neg hrange]
      dsimp only
      split <;> simp

/-- **Which numbers have the text of a whole number.** -/
theorem numberText_iff (h : NumberToString x t) {i : Nat} (hi : i < 2 ^ 53) :
    t = Nat.toDigits 10 i ↔
      IsFinite x ∧ units x = i * unitsPerOne ∧ (negative x = false ∨ i = 0) := by
  have hfloat := isFloat_of_lt hi
  constructor
  · rintro rfl
    obtain ⟨hfin, hcases⟩ := digits_text h (isDigit_toDigits i)
    refine ⟨hfin, ?_⟩
    rcases hcases with ⟨hzero, htext⟩ | ⟨hpos, s, j, htext, hr⟩
    · obtain rfl := toDigits_injective htext
      exact ⟨by rw [hzero, Nat.zero_mul], .inr rfl⟩
    · obtain rfl := toDigits_injective htext
      refine ⟨?_, .inl hpos⟩
      rw [← hr]
      refine rounded_eq hfloat.mul_unitsPerOne ?_
      rw [zpow_natCast]
      push_cast
      rfl
  · rintro ⟨hfin, hunits, hsign⟩
    have hU := unitsPerOne_pos
    cases h with
    | nan hnan => exact absurd hnan (not_isNaN_of_isFinite hfin)
    | zero _ hzero =>
      rw [hzero] at hunits
      obtain rfl : i = 0 := by
        rcases Nat.mul_eq_zero.mp hunits.symm with h0 | h0
        · exact h0
        · omega
      rfl
    | negative _ hne hneg =>
      rcases hsign with hpos | rfl
      · rw [hneg] at hpos
        cases hpos
      · rw [Nat.zero_mul] at hunits
        exact absurd hunits hne
    | infinity => exact absurd hfin (infinity_spec false).2.1
    | @finite _ n k s _ hne hpos hn =>
      obtain ⟨hshort, hlen⟩ := hn.shortest hfin hpos
      have hi0 : i ≠ 0 := by
        rintro rfl
        rw [Nat.zero_mul] at hunits
        exact hne hunits
      have hlarge := point_le_iff hshort (apart_natCast (j := 21) (Nat.le_refl _))
      rw [rounded_pow (Nat.le_refl _), hlen, sub_add_cancel, hunits] at hlarge
      have hn21 : n ≤ 21 := by
        refine hlarge.mpr (Nat.mul_lt_mul_of_pos_right (Nat.lt_of_lt_of_le hi ?_) hU)
        norm_num
      rw [hunits] at hshort
      obtain ⟨he, hvalue⟩ := hshort.whole hi0 hi
      have hrange : -5 ≤ n ∧ n ≤ 21 := by
        have := hn.one_le
        omega
      have hk : (k : Int) ≤ n := by omega
      rw [layout, if_pos hrange, if_pos hk, zeros, hvalue, toDigits_mul_pow hshort.pos]

theorem isArrayIndex_congr {t' : List Char} (h : NumberToString x t) (h' : NumberToString x t')
    (i : Nat) : IsArrayIndex t i ↔ IsArrayIndex t' i := by
  refine and_congr_right fun hi => ?_
  rw [numberText_iff h (by omega), numberText_iff h' (by omega)]

theorem arrayIndexOf_number {v : Numeric} (hx : numOf v.1 = some x) (i : Nat) :
    arrayIndexOf (.number v) = some i ↔ i < u32Limit ∧
      IsFinite x ∧ units x = i * unitsPerOne ∧ (negative x = false ∨ i = 0) := by
  have hU := unitsPerOne_pos
  obtain ⟨v, hv⟩ := v
  cases v with
  | smi n =>
    obtain ⟨hmin, hmax⟩ := hv
    simp only [SMI_MIN, SMI_MAX] at hmin hmax
    obtain rfl : f64OfInt n = x := Option.some.inj hx
    obtain ⟨hfin, hneg, hunits⟩ := f64OfInt_exact (n := n) (by omega)
    rw [hneg, hunits, Nat.mul_right_cancel_iff hU]
    change (if 0 ≤ n ∧ n < u32Limit then some n.toNat else none) = some i ↔ _
    unfold u32Limit
    simp only [decide_eq_false_iff_not]
    split
    case isTrue h =>
      rw [Option.some_inj]
      constructor
      · rintro rfl
        exact ⟨by omega, hfin, by omega, .inl (by omega)⟩
      · rintro ⟨-, -, hi, -⟩
        omega
    case isFalse h =>
      refine iff_of_false (by simp) ?_
      rintro ⟨hlt, -, hi, hsign⟩
      omega
  | double y =>
    obtain rfl : y = x := Option.some.inj hx
    change (if IsFinite y ∧ IsWhole y ∧ (negative y = false ∨ units y = 0) ∧
      units y < 4294967296 * unitsPerOne then some (trunc y).toNat else none) = some i ↔ _
    constructor
    · intro h
      split at h
      case isFalse => cases h
      case isTrue hcond =>
        obtain ⟨hfin, hwhole, hsign, hlt⟩ := hcond
        obtain ⟨m, hm⟩ := Nat.dvd_of_mod_eq_zero hwhole
        rw [Nat.mul_comm] at hm
        rw [hm] at hlt
        have hlt' := Nat.lt_of_mul_lt_mul_right hlt
        have htrunc := trunc_of_units hm
        obtain rfl : (trunc y).toNat = i := Option.some.inj h
        rw [htrunc]
        rcases hsign with hpos | hzero
        · rw [hpos]
          exact ⟨by simpa [u32Limit] using hlt', hfin, by simpa using hm, .inl rfl⟩
        · have hm0 : m = 0 := by
            rcases Nat.mul_eq_zero.mp (hm.symm.trans hzero) with h0 | h0
            · exact h0
            · omega
          subst hm0
          refine ⟨by simp [u32Limit], hfin, by simpa using hm, .inr (by simp)⟩
    · rintro ⟨hlt, hfin, hunits, hsign⟩
      have hwhole : IsWhole y := by rw [IsWhole, hunits, Nat.mul_mod_left]
      have hsign' : negative y = false ∨ units y = 0 := by
        rcases hsign with hpos | rfl
        · exact .inl hpos
        · exact .inr (by rw [hunits, Nat.zero_mul])
      have hbound : units y < 4294967296 * unitsPerOne := by
        rw [hunits]
        exact Nat.mul_lt_mul_of_pos_right hlt hU
      rw [if_pos ⟨hfin, hwhole, hsign', hbound⟩, trunc_of_units hunits]
      rcases hsign with hpos | rfl
      · simp [hpos]
      · simp
  | _ => exact absurd hv (by simp [IsNumeric])

end Numbers

/-! ## §6 Texts of numbers as keys -/

section Ascii

variable {t t' : List Char} {c : Char}

theorem Ascii.append (h : Ascii t) (h' : Ascii t') : Ascii (t ++ t') := fun a ha =>
  (List.mem_append.mp ha).elim (h a) (h' a)

def AsciiChar (c : Char) : Prop := c.toNat < 128

theorem AsciiChar.cons (hc : AsciiChar c) (h : Ascii t) : Ascii (c :: t) :=
  List.forall_mem_cons.mpr ⟨hc, h⟩

theorem ascii_zeros (n : Int) : Ascii (zeros n) := by
  intro c hc
  rw [List.eq_of_mem_replicate hc]
  decide

theorem ascii_toDigits (n : Nat) : Ascii (Nat.toDigits 10 n) := ascii_of_digits (isDigit_toDigits n)

theorem ascii_layout (n : Int) (k s : Nat) : Ascii (layout n k s) := by
  have hds := ascii_toDigits s
  have hexp := ascii_toDigits (n - 1).natAbs
  have htake : ∀ i, Ascii ((Nat.toDigits 10 s).take i) := fun i a ha => hds a (List.mem_of_mem_take ha)
  have hdrop : ∀ i, Ascii ((Nat.toDigits 10 s).drop i) := fun i a ha => hds a (List.mem_of_mem_drop ha)
  have hsign : AsciiChar (if n < 0 then '-' else '+') := by
    unfold AsciiChar
    split <;> decide
  have hzero : AsciiChar '0' := by unfold AsciiChar; decide
  have hpoint : AsciiChar '.' := by unfold AsciiChar; decide
  have he : AsciiChar 'e' := by unfold AsciiChar; decide
  unfold layout
  dsimp only
  split
  · split
    · exact hds.append (ascii_zeros _)
    · split
      · exact (htake _).append (hpoint.cons (hdrop _))
      · exact Ascii.append (hzero.cons (hpoint.cons (ascii_zeros _))) hds
  · split
    · exact hds.append (he.cons (hsign.cons hexp))
    · exact ((htake _).append (hpoint.cons (hdrop _))).append (he.cons (hsign.cons hexp))

theorem NumberToString.ascii {x : BitVec 64} (h : NumberToString x t) : Ascii t := by
  induction h with
  | nan => exact ascii_of_solid (solid_of_all (by decide))
  | zero => exact ascii_of_solid (solid_of_all (by decide))
  | negative _ _ _ _ ih =>
    have hminus : AsciiChar '-' := by unfold AsciiChar; decide
    exact hminus.cons ih
  | infinity => exact ascii_of_solid (solid_of_all (by decide))
  | finite => exact ascii_layout _ _ _

end Ascii

theorem answer_of_number {key : StrStorage} {x : BitVec 64} {t : List Char}
    (h : NumberToString x t) (hkey : StoredAs key t)
    (hmax : ¬ (negative x = false ∧ units x = 4294967295 * unitsPerOne)) (i : Nat) :
    (propKeyIndex key = some i ↔ IsArrayIndex t i) ∧
      (propKeyAsIndex key = some i ↔ IsArrayIndex t i) ∧
      (jsonIndex key = some i ↔ IsArrayIndex t i) := by
  have hascii := h.ascii
  have hzero : ¬ LeadingZero (t.map unit) := by
    intro hzero
    have hdigits : ∀ c ∈ t, c.isDigit = true := by
      intro c hc
      have hcode := hzero.2.2.1 _ (List.mem_map_of_mem hc)
      have hnat : (unit c).toNat = c.toNat :=
        (BitVec.toNat_ofNat ..).trans (Nat.mod_eq_of_lt (Nat.lt_trans (hascii c hc) (by decide)))
      rwa [hnat, ← isDigit_iff] at hcode
    obtain ⟨j, rfl⟩ : ∃ j, t = Nat.toDigits 10 j := by
      obtain ⟨-, ⟨-, ht⟩ | ⟨-, s, j, ht, -⟩⟩ := digits_text h hdigits
      · exact ⟨0, ht⟩
      · exact ⟨_, ht⟩
    have hhead := (indexOf_leadingZero hzero).1
    rw [codes_unit hascii] at hhead
    exact (codes_toDigits j).2.2 hhead
  have hne : t.map unit ≠ (Nat.toDigits 10 4294967295).map unit := by
    intro heq
    have htext := map_unit_injective hascii (ascii_toDigits _) heq
    obtain ⟨-, hunits, hsign⟩ := (numberText_iff h (i := 4294967295) (by norm_num)).mp htext
    exact hmax ⟨hsign.resolve_right (by norm_num), hunits⟩
  have hexpected : (∃ t', t.map unit = t'.map unit ∧ IsArrayIndex t' i) ↔ IsArrayIndex t i := by
    constructor
    · rintro ⟨t', heq, hlt, rfl⟩
      exact ⟨hlt, map_unit_injective hascii (ascii_toDigits i) heq⟩
    · exact fun hi => ⟨_, rfl, hi⟩
  have hanswer := answer_of_canonical hkey hzero hne i
  rwa [hexpected, ← propKeyIndex_eq hkey] at hanswer

/-! ## §7 Keys -/

section Keys

variable (host : ShortestDigits)

theorem answer_string {key : StrStorage} (h : Canonical (.string key)) :
    Classified host (.string key) := by
  intro u hu
  obtain ⟨hzero, hmax⟩ := h u hu
  have hanswer := answer_of_canonical hu hzero hmax
  refine ⟨fun i => ?_, fun i => ?_, fun i => (hanswer i).2.1, fun i => (hanswer i).2.2⟩
  · rw [arrayIndexOf_eq hu]
    exact (hanswer i).1
  · rw [propKeyIndex_eq hu]
    exact (hanswer i).1

theorem canonical_of_classified_string {key : StrStorage} (h : Classified host (.string key)) :
    Canonical (.string key) := by
  intro u hu
  have hindex := (h u hu).arrayIndexOf
  simp only [arrayIndexOf_eq hu] at hindex
  constructor
  · intro hzero
    obtain ⟨hhead, i, hi⟩ := indexOf_leadingZero hzero
    obtain ⟨t, rfl, -, rfl⟩ := (hindex i).mp hi
    rw [codes_unit (ascii_toDigits i)] at hhead
    exact (codes_toDigits i).2.2 hhead
  · rintro rfl
    have hhead := (codes_toDigits 4294967295).2.2
    rw [← codes_unit (ascii_toDigits _)] at hhead
    have hi := (indexOf_text (i := 4294967295) hhead).mpr ⟨by decide, rfl⟩
    obtain ⟨t, -, hlt, -⟩ := (hindex _).mp hi
    exact absurd hlt (Nat.lt_irrefl _)

theorem answer_number {v : Numeric} (h : Canonical (.number v)) :
    Classified host (.number v) := by
  intro x hx t ht key key' hkey hkey'
  obtain ⟨hzero, hmax⟩ := h x hx
  have htext := numberToString_sound host hzero
  rw [Engine.numberToString_eq host hzero] at hkey'
  have hcongr := isArrayIndex_congr ht htext
  refine ⟨fun i => ?_, fun i => ?_, fun i => ?_, fun i => ?_⟩
  · rw [arrayIndexOf_number hx]
    constructor
    · rintro ⟨hlt, hfin, hunits, hsign⟩
      unfold u32Limit at hlt
      have hne : i ≠ 4294967295 := by
        rintro rfl
        exact hmax ⟨hsign.resolve_right (by decide), hunits⟩
      exact ⟨by omega, (numberText_iff ht (by omega)).mpr ⟨hfin, hunits, hsign⟩⟩
    · rintro ⟨hlt, rfl⟩
      exact ⟨by unfold u32Limit; omega, (numberText_iff ht (by omega)).mp rfl⟩
  · rw [hcongr]
    exact (answer_of_number htext hkey hmax i).1
  · rw [hcongr]
    exact (answer_of_number htext hkey' hmax i).2.1
  · rw [hcongr]
    exact (answer_of_number htext hkey' hmax i).2.2

theorem canonical_of_classified_number {v : Numeric} (h : Classified host (.number v)) :
    Canonical (.number v) := by
  intro x hx
  have hclassified := h x hx
  have hstored : ∀ t : List Char, StoredAs (.utf16 (t.map unit)) t := fun _ => rfl
  constructor
  · intro hzero
    have hfin := isFinite_of_units_eq_zero hzero.1
    have hanswer := hclassified _ (.zero hfin hzero.1) _ _ (hstored _) (hstored _)
    have hindex := (hanswer.propKeyIndex 0).mpr ⟨by decide, by decide⟩
    rw [(numberToString_negativeZero host hzero).1, propKeyIndex_eq rfl, indexOf_iff] at hindex
    exact absurd (hindex.2.2.1 45 (by decide)) (by decide)
  · rintro ⟨hpos, hunits⟩
    have hzero : ¬ NegativeZero x := by
      rintro ⟨-, hneg⟩
      rw [hneg] at hpos
      cases hpos
    have hfin : IsFinite x := by
      refine isFinite_of_lt ?_
      rw [hunits]
      have hstep := Nat.mul_lt_mul_of_pos_right (by norm_num : 4294967295 < 2 ^ 32) unitsPerOne_pos
      have hpow : 2 ^ 32 * unitsPerOne ≤ overflow := by
        unfold unitsPerOne
        exact pow_mul_pow_le (by decide)
      exact Nat.lt_of_lt_of_le hstep hpow
    have hanswer := hclassified _ (numberToString_sound host hzero) _ _ (hstored _) (hstored _)
    have hindex := (hanswer.arrayIndexOf 4294967295).mp
      ((arrayIndexOf_number hx _).mpr ⟨by decide, hfin, hunits, .inl hpos⟩)
    exact absurd hindex.1 (Nat.lt_irrefl _)

end Keys

/-- **Where the classifiers agree**: on all keys but strings with a leading zero, a negative zero,
and 2³² − 1 as a string or a number. -/
theorem classified_iff (host : ShortestDigits) (k : Key) : Classified host k ↔ Canonical k := by
  cases k with
  | string key => exact ⟨canonical_of_classified_string host, answer_string host⟩
  | number v => exact ⟨canonical_of_classified_number host, answer_number host⟩

/-- `"01"` is an element for the interpreter. -/
theorem not_classified : ¬ ∀ host k, Classified host k := by
  intro h
  obtain ⟨host⟩ := nonempty_shortestDigits
  have hindex := (h host (.string (.latin1 [0x30, 0x31])) _ rfl).arrayIndexOf 1
  obtain ⟨t, ht, -, rfl⟩ := hindex.mp (by decide)
  exact absurd (congrArg List.length ht) (by decide)

end V12.Interp
