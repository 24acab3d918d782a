/-
V12.Interp.StringNumberTheorems — which strings are read as their numbers.

A string is its trimmed text, a text is read by the test that it passes
(`magnitude_decimal`, `magnitude_radix`), and the rounding after each digit in a
radix is the rounding of the whole but for one kind of digits (`parseRadix_iff`).
-/
import V12.Interp.StringNumber

namespace V12.Interp

open Lib.Binary64

variable {a c letter : Char} {n : Nat} {t ds rest exp : List Char} {s : List (BitVec 16)} {e : Int}
  {m : Magnitude} {negative : Bool}

/-! ## §1 Characters -/

theorem char_le (a c : Char) : a ≤ c ↔ a.toNat ≤ c.toNat := Iff.rfl

theorem char_ext (h : a.toNat = c.toNat) : a = c :=
  Char.ext (UInt32.toNat_inj.mp h)

theorem toNat_ofNat (h : n < 128) : (Char.ofNat n).toNat = n := by
  have hvalid : n.isValidChar := .inl (by omega)
  rw [Char.ofNat, dif_pos hvalid]
  rfl

theorem toNat_toLower (c : Char) :
    c.toLower.toNat = if 65 ≤ c.toNat ∧ c.toNat ≤ 90 then c.toNat + 32 else c.toNat := by
  have hupper : c.val ≥ 'A'.val ↔ 65 ≤ c.toNat := Iff.rfl
  have hlast : c.val ≤ 'Z'.val ↔ c.toNat ≤ 90 := Iff.rfl
  unfold Char.toLower
  split
  case isTrue h =>
    have h' := h
    rw [hupper, hlast] at h'
    rw [if_pos h']
    change (c.val + ('a'.val - 'A'.val)).toNat = _
    have hval : c.val.toNat = c.toNat := rfl
    have hstep : ('a'.val - 'A'.val).toNat = 32 := rfl
    rw [UInt32.toNat_add]
    omega
  case isFalse h =>
    rw [hupper, hlast] at h
    rw [if_neg h]

theorem toDigit_toLower (radix : Nat) (c : Char) : toDigit radix c.toLower = toDigit radix c := by
  have h := toNat_toLower c
  simp only [toDigit, char_le, show '0'.toNat = 48 from rfl, show '9'.toNat = 57 from rfl,
    show 'a'.toNat = 97 from rfl, show 'z'.toNat = 122 from rfl, show 'A'.toNat = 65 from rfl,
    show 'Z'.toNat = 90 from rfl]
  generalize c.toLower.toNat = l at h ⊢
  generalize c.toNat = n at h ⊢
  congr 1
  split at h <;> subst h <;> grind

@[simp] theorem isDigit_toLower (radix : Nat) (c : Char) :
    isDigit radix c.toLower = isDigit radix c := by
  simp [isDigit, toDigit_toLower]

@[simp] theorem digitsValue_toLower (radix : Nat) (ds : List Char) :
    digitsValue radix (ds.map Char.toLower) = digitsValue radix ds := by
  simp [digitsValue, List.foldl_map, digitValue, toDigit_toLower]

/-- The range of the characters of literals: no white space, no control. -/
def Solid (c : Char) : Prop := 43 ≤ c.toNat ∧ c.toNat < 123

instance (c : Char) : Decidable (Solid c) := inferInstanceAs (Decidable (_ ∧ _))

theorem solid_of_all (h : t.all (fun c => decide (Solid c)) = true) :
    ∀ c ∈ t, Solid c := fun c hc => of_decide_eq_true (List.all_eq_true.mp h c hc)

theorem solid_of_isDigit {radix : Nat} (h : isDigit radix c = true) : Solid c := by
  simp only [isDigit, toDigit, Option.isSome_filter, char_le, show '0'.toNat = 48 from rfl,
    show '9'.toNat = 57 from rfl, show 'a'.toNat = 97 from rfl, show 'z'.toNat = 122 from rfl,
    show 'A'.toNat = 65 from rfl, show 'Z'.toNat = 90 from rfl] at h
  unfold Solid
  generalize c.toNat = n at h ⊢
  grind

theorem Digits.solid {radix : Nat} (h : Digits radix ds) : ∀ c ∈ ds, Solid c :=
  fun c hc => solid_of_isDigit (h.2 c hc)

theorem solid_toLower : Solid c.toLower ↔ Solid c := by
  have h := toNat_toLower c
  unfold Solid
  rw [h]
  split <;> omega

/-! ## §2 Units -/

theorem toNat_unit (h : Solid c) : (unit c).toNat = c.toNat := by
  unfold Solid at h
  rw [unit, BitVec.toNat_ofNat]
  omega

theorem not_isWs_unit (h : Solid c) : isWs (unit c) = false := by
  have hnat := toNat_unit h
  unfold Solid at h
  rw [isWs, decide_eq_false_iff_not]
  intro hmem
  simp only [WS, List.mem_cons, List.not_mem_nil, or_false] at hmem
  rcases hmem with heq | heq | heq | heq | heq | heq <;> rw [heq] at hnat <;> simp at hnat <;> omega

def Ascii (t : List Char) : Prop := ∀ c ∈ t, c.toNat < 128

theorem ascii_of_solid (h : ∀ c ∈ t, Solid c) : Ascii t := fun c hc => by
  have hsolid := h c hc
  unfold Solid at hsolid
  omega

theorem unit_injective {c' : Char} (hc : c.toNat < 128) (hc' : c'.toNat < 128)
    (h : unit c = unit c') : c = c' := by
  have hnat := congrArg BitVec.toNat h
  rw [unit, unit, BitVec.toNat_ofNat, BitVec.toNat_ofNat] at hnat
  exact char_ext (by omega)

theorem map_unit_injective {t' : List Char} (ht : Ascii t) (ht' : Ascii t')
    (h : t.map unit = t'.map unit) : t = t' := by
  induction t generalizing t' with
  | nil => exact (List.map_eq_nil_iff.mp h.symm).symm
  | cons c t ih =>
    cases t' with
    | nil => cases h
    | cons c' t' =>
      obtain ⟨hhead, htail⟩ := List.cons.inj h
      rw [unit_injective (ht c List.mem_cons_self) (ht' c' List.mem_cons_self) hhead,
        ih (fun a ha => ht a (List.mem_cons_of_mem c ha))
        (fun a ha => ht' a (List.mem_cons_of_mem c' ha)) htail]

theorem asciiText_map (ht : Ascii t) : asciiText (t.map unit) = some t := by
  induction t with
  | nil => rfl
  | cons c t ih =>
    have hc := ht c List.mem_cons_self
    have hnat : (unit c).toNat = c.toNat := by
      rw [unit, BitVec.toNat_ofNat]
      omega
    have hchar : Char.ofNat (unit c).toNat = c := char_ext (by rw [hnat, toNat_ofNat hc])
    have hrest := ih fun a ha => ht a (List.mem_cons_of_mem c ha)
    unfold asciiText at hrest ⊢
    rw [List.map_cons, List.mapM_cons, if_pos (hnat ▸ hc), hrest, hchar]
    rfl

theorem map_unit_of_asciiText (h : asciiText s = some t) :
    s = t.map unit ∧ Ascii t := by
  induction s generalizing t with
  | nil =>
    cases h
    exact ⟨rfl, fun c hc => by cases hc⟩
  | cons u s ih =>
    unfold asciiText at h ih
    rw [List.mapM_cons] at h
    split at h
    case isTrue hlt =>
      cases hrest : s.mapM fun u : BitVec 16 =>
          if u.toNat < 128 then some (Char.ofNat u.toNat) else none with
      | none =>
        rw [hrest] at h
        cases h
      | some rest =>
        rw [hrest] at h
        cases h
        have hunit : unit (Char.ofNat u.toNat) = u := by
          rw [unit, toNat_ofNat hlt, BitVec.ofNat_toNat, BitVec.setWidth_eq]
        obtain ⟨hs, hascii⟩ := ih hrest
        refine ⟨by rw [List.map_cons, hunit, ← hs], fun c hc => ?_⟩
        rcases List.mem_cons.mp hc with rfl | hin
        · rwa [toNat_ofNat hlt]
        · exact hascii c hin
    case isFalse hge => cases h

/-! ## §3 White space -/

theorem trim_eq_nil_iff : trim s = [] ↔ ∀ u ∈ s, isWs u = true := by
  rw [trim, List.rdropWhile_eq_nil_iff]
  constructor
  · intro h u hu
    rw [← List.takeWhile_append_dropWhile (p := isWs) (l := s)] at hu
    rcases List.mem_append.mp hu with htake | hdrop
    · exact List.mem_takeWhile_imp htake
    · exact h u hdrop
  · intro h u hu
    exact h u ((List.dropWhile_sublist isWs).subset hu)

theorem trim_of_surrounded (ht : ∀ c ∈ t, Solid c) (hs : Surrounded isWs s t) :
    trim s = t.map unit := by
  obtain ⟨lead, trail, hlead, htrail, rfl⟩ := hs
  have hsolid : ∀ u ∈ t.map unit, isWs u = false := by
    intro u hu
    obtain ⟨c, hc, rfl⟩ := List.mem_map.mp hu
    exact not_isWs_unit (ht c hc)
  generalize t.map unit = w at hsolid
  rw [List.append_assoc, trim, List.dropWhile_append_of_pos hlead]
  cases w with
  | nil =>
    rw [List.nil_append, List.dropWhile_eq_nil_iff.mpr htrail]
    rfl
  | cons u w =>
    have hu : ¬ isWs u = true := by simp [hsolid u List.mem_cons_self]
    rw [List.cons_append, List.dropWhile_cons_of_neg hu, ← List.cons_append]
    have hlast : ¬ isWs ((u :: w).getLast (List.cons_ne_nil u w)) = true := by
      simp [hsolid _ (List.getLast_mem (List.cons_ne_nil u w))]
    rw [List.rdropWhile, List.reverse_append,
      List.dropWhile_append_of_pos fun u hu => htrail u (List.mem_reverse.mp hu)]
    exact List.rdropWhile_eq_self_iff.mpr fun _ => hlast

theorem surrounded_of_trim (h : trim s = t.map unit) :
    Surrounded isWs s t := by
  refine ⟨s.takeWhile isWs, (s.dropWhile isWs).rtakeWhile isWs, fun u hu => List.mem_takeWhile_imp hu,
    fun u hu => List.mem_rtakeWhile_imp hu, ?_⟩
  rw [← h, trim, List.append_assoc, List.rdropWhile_append_rtakeWhile,
    List.takeWhile_append_dropWhile]

/-! ## §4 Decimal literals -/

theorem takeWhile_digits {w : List Char} (hw : ∀ c ∈ w, isDigit 10 c = true)
    (hrest : rest.takeWhile (isDigit 10) = []) :
    (w ++ rest).takeWhile (isDigit 10) = w ∧ (w ++ rest).dropWhile (isDigit 10) = rest := by
  refine ⟨?_, ?_⟩
  · rw [List.takeWhile_append_of_pos hw, hrest, List.append_nil]
  · have hsplit := List.takeWhile_append_dropWhile (p := isDigit 10) (l := rest)
    rw [hrest, List.nil_append] at hsplit
    rw [List.dropWhile_append_of_pos hw, hsplit]

theorem takeWhile_all {w : List Char} (hw : ∀ c ∈ w, isDigit 10 c = true) :
    w.takeWhile (isDigit 10) = w ∧ w.dropWhile (isDigit 10) = [] := by
  have hnil : [].takeWhile (isDigit 10) = [] := rfl
  have h := takeWhile_digits hw hnil
  rwa [List.append_nil] at h

theorem exponentOf_plain (hds : Digits 10 ds) :
    exponentOf (c :: ds) = digitsValue 10 ds := by
  cases ds with
  | nil => exact absurd rfl hds.1
  | cons d ds =>
    have hd := hds.2 d List.mem_cons_self
    unfold exponentOf
    split
    case h_1 heq =>
      cases heq
      exact absurd hd (by decide)
    case h_2 heq =>
      cases heq
      exact absurd hd (by decide)
    case h_3 heq =>
      cases heq
      rfl
    case h_4 heq => cases heq

theorem ExponentPart.valid (h : ExponentPart rest e) :
    validExponent rest = true ∧ exponentOf rest = e := by
  cases h with
  | absent => exact ⟨rfl, rfl⟩
  | plain hc hds =>
    rename_i c ds
    refine ⟨?_, exponentOf_plain hds⟩
    obtain ⟨htake, hdrop⟩ := takeWhile_all hds.2
    cases ds with
    | nil => exact absurd rfl hds.1
    | cons d ds =>
      have hd := hds.2 d List.mem_cons_self
      have hplus : ∀ ds', d :: ds = '+' :: ds' → False := by
        intro ds' heq
        cases heq
        exact absurd hd (by decide)
      have hminus : ∀ ds', d :: ds = '-' :: ds' → False := by
        intro ds' heq
        cases heq
        exact absurd hd (by decide)
      rw [validExponent, if_pos hc]
      · simp [htake, hdrop]
      · exact hplus
      · exact hminus
  | plus hc hds =>
    obtain ⟨htake, hdrop⟩ := takeWhile_all hds.2
    refine ⟨?_, rfl⟩
    rw [validExponent, if_pos hc]
    simp [htake, hdrop, hds.1]
  | minus hc hds =>
    obtain ⟨htake, hdrop⟩ := takeWhile_all hds.2
    refine ⟨?_, rfl⟩
    rw [validExponent, if_pos hc]
    simp [htake, hdrop, hds.1]

theorem digits_of_scan (htake : ds.takeWhile (isDigit 10) ≠ [])
    (hdrop : ds.dropWhile (isDigit 10) = []) : Digits 10 ds := by
  have hall : ds.takeWhile (isDigit 10) = ds := by
    have hsplit := List.takeWhile_append_dropWhile (p := isDigit 10) (l := ds)
    rwa [hdrop, List.append_nil] at hsplit
  rw [hall] at htake
  exact ⟨htake, fun c hc => List.mem_takeWhile_imp (hall ▸ hc)⟩

theorem exists_exponentPart (h : validExponent rest = true) :
    ∃ e, ExponentPart rest e := by
  unfold validExponent at h
  split at h
  case h_1 => exact ⟨0, .absent⟩
  case h_2 c more =>
    split at h
    case isFalse => cases h
    case isTrue hc =>
      rw [decide_eq_true_eq] at h
      split at h
      case h_1 ds => exact ⟨_, .plus hc (digits_of_scan h.1 h.2)⟩
      case h_2 ds => exact ⟨_, .minus hc (digits_of_scan h.1 h.2)⟩
      case h_3 ds => exact ⟨_, .plain hc (digits_of_scan h.1 h.2)⟩

theorem ExponentPart.start (h : ExponentPart exp e) :
    exp.takeWhile (isDigit 10) = [] ∧ fractionPart exp = ([], exp) := by
  cases h with
  | absent => exact ⟨rfl, rfl⟩
  | plain hc hds => rcases hc with rfl | rfl <;> exact ⟨rfl, rfl⟩
  | plus hc hds => rcases hc with rfl | rfl <;> exact ⟨rfl, rfl⟩
  | minus hc hds => rcases hc with rfl | rfl <;> exact ⟨rfl, rfl⟩

theorem fractionPart_point {frac : List Char} (hfrac : ∀ c ∈ frac, isDigit 10 c = true)
    (hexp : ExponentPart exp e) : fractionPart ('.' :: frac ++ exp) = (frac, exp) := by
  obtain ⟨htake, hdrop⟩ := takeWhile_digits hfrac hexp.start.1
  rw [List.cons_append, fractionPart, htake, hdrop]

theorem scan_eq {whole frac tail : List Char} (hwhole : ∀ c ∈ whole, isDigit 10 c = true)
    (htail : tail.takeWhile (isDigit 10) = []) (hfraction : fractionPart tail = (frac, exp))
    (hne : whole ++ frac ≠ []) (hexp : ExponentPart exp e) :
    validDecimal (whole ++ tail) = true ∧
      parseF64 (whole ++ tail) = scaled false (digitsValue 10 (whole ++ frac)) (e - frac.length) := by
  obtain ⟨htake, hdrop⟩ := takeWhile_digits hwhole htail
  unfold validDecimal parseF64
  simp only [htake, hdrop, hfraction, hexp.valid.1, hexp.valid.2]
  have hlength : ¬ whole.length + frac.length = 0 := by
    rw [← List.length_append]
    exact fun h => hne (List.length_eq_zero_iff.mp h)
  rw [if_neg hlength]
  exact ⟨rfl, trivial⟩

/-- **A decimal literal passes the filter**, and the host reads its number. -/
theorem valid_of_literal {s : List Char} (h : StrUnsignedDecimalLiteral s (.decimal n e)) :
    validDecimal s = true ∧ parseF64 s = scaled false n e := by
  cases h with
  | point hwhole hfrac hexp =>
    rename_i whole frac exp e
    have hfrac' : ∀ c ∈ frac, isDigit 10 c = true := by
      rcases hfrac with rfl | hfrac
      · exact fun c hc => by cases hc
      · exact hfrac.2
    rw [List.append_assoc]
    exact scan_eq hwhole.2 rfl (fractionPart_point hfrac' hexp)
      (fun hnil => hwhole.1 (List.append_eq_nil_iff.mp hnil).1) hexp
  | frac hfrac hexp =>
    rename_i frac exp e
    have hnil : ∀ c ∈ ([] : List Char), isDigit 10 c = true := fun c hc => by cases hc
    exact @scan_eq exp e [] frac ('.' :: frac ++ exp) hnil rfl (fractionPart_point hfrac.2 hexp)
      hfrac.1 hexp
  | whole hwhole hexp =>
    rename_i whole exp
    have h := scan_eq hwhole.2 hexp.start.1 hexp.start.2
      (fun hnil => hwhole.1 (List.append_eq_nil_iff.mp hnil).1) hexp
    rwa [List.append_nil, List.length_nil, Nat.cast_zero, sub_zero] at h

/-- **Only decimal literals pass the filter.** -/
theorem exists_literal {s : List Char} (h : validDecimal s = true) :
    ∃ n e, StrUnsignedDecimalLiteral s (.decimal n e) := by
  have hsplit := List.takeWhile_append_dropWhile (p := isDigit 10) (l := s)
  have hwhole : ∀ c ∈ s.takeWhile (isDigit 10), isDigit 10 c = true :=
    fun c hc => List.mem_takeWhile_imp hc
  unfold validDecimal at h
  generalize s.takeWhile (isDigit 10) = whole at *
  generalize s.dropWhile (isDigit 10) = tail at *
  unfold fractionPart at h
  split at h
  rename_i frac rest hfraction
  dsimp only at h
  split at h
  case isTrue => cases h
  case isFalse hlength =>
    obtain ⟨e, hexp⟩ := exists_exponentPart h
    split at hfraction
    case h_1 more =>
      cases hfraction
      have hmore := List.takeWhile_append_dropWhile (p := isDigit 10) (l := more)
      have hfrac : ∀ c ∈ more.takeWhile (isDigit 10), isDigit 10 c = true :=
        fun c hc => List.mem_takeWhile_imp hc
      generalize more.takeWhile (isDigit 10) = frac at *
      generalize more.dropWhile (isDigit 10) = rest at *
      subst hmore
      cases whole with
      | nil =>
        have hne : frac ≠ [] := by
          rintro rfl
          exact hlength rfl
        rw [← hsplit]
        exact ⟨_, _, .frac ⟨hne, hfrac⟩ hexp⟩
      | cons c whole =>
        rw [← hsplit]
        have hpoint : StrUnsignedDecimalLiteral ((c :: whole) ++ '.' :: frac ++ rest) _ :=
          .point ⟨List.cons_ne_nil c whole, hwhole⟩ (by
            rcases eq_or_ne frac [] with rfl | hne
            · exact .inl rfl
            · exact .inr ⟨hne, hfrac⟩) hexp
        rw [List.append_assoc] at hpoint
        exact ⟨_, _, hpoint⟩
    case h_2 =>
      cases hfraction
      have hne : whole ≠ [] := by
        rintro rfl
        exact hlength rfl
      rw [← hsplit]
      exact ⟨_, _, .whole ⟨hne, hwhole⟩ hexp⟩

/-! ## §5 Lower case -/

theorem toLower_eq_iff (ha : a.toNat < 65) : c.toLower = a ↔ c = a := by
  have hc := toNat_toLower c
  constructor
  · rintro rfl
    refine char_ext ?_
    split at hc <;> omega
  · rintro rfl
    refine char_ext ?_
    rw [hc, if_neg (by omega)]

theorem toLower_eq_e_iff (c : Char) : c.toLower = 'e' ∨ c.toLower = 'E' ↔ c = 'e' ∨ c = 'E' := by
  have hc := toNat_toLower c
  have he : 'e'.toNat = 101 := rfl
  have hE : 'E'.toNat = 69 := rfl
  constructor
  · rintro (h | h)
    · rw [h] at hc
      split at hc
      · exact .inr (char_ext (by omega))
      · exact .inl (char_ext (by omega))
    · rw [h] at hc
      split at hc <;> omega
  · rintro (rfl | rfl)
    · exact .inl rfl
    · exact .inl rfl

theorem takeWhile_toLower (t : List Char) :
    (t.map Char.toLower).takeWhile (isDigit 10) = (t.takeWhile (isDigit 10)).map Char.toLower := by
  have hcomp : isDigit 10 ∘ Char.toLower = isDigit 10 := funext fun c => isDigit_toLower 10 c
  rw [List.takeWhile_map, hcomp]

theorem dropWhile_toLower (t : List Char) :
    (t.map Char.toLower).dropWhile (isDigit 10) = (t.dropWhile (isDigit 10)).map Char.toLower := by
  have hcomp : isDigit 10 ∘ Char.toLower = isDigit 10 := funext fun c => isDigit_toLower 10 c
  rw [List.dropWhile_map, hcomp]

theorem fractionPart_toLower (t : List Char) :
    fractionPart (t.map Char.toLower) =
      ((fractionPart t).1.map Char.toLower, (fractionPart t).2.map Char.toLower) := by
  cases t with
  | nil => rfl
  | cons c t =>
    by_cases hc : c = '.'
    · subst hc
      change fractionPart ('.' :: t.map Char.toLower) = _
      rw [fractionPart, fractionPart, takeWhile_toLower, dropWhile_toLower]
    · have hlower : c.toLower ≠ '.' := fun h => hc ((toLower_eq_iff (by decide)).mp h)
      simp [fractionPart, hc, hlower]

theorem validExponent_toLower (rest : List Char) :
    validExponent (rest.map Char.toLower) = validExponent rest := by
  cases rest with
  | nil => rfl
  | cons c more =>
    have hscan : ∀ ds : List Char,
        ((ds.map Char.toLower).takeWhile (isDigit 10) ≠ [] ∧
          (ds.map Char.toLower).dropWhile (isDigit 10) = []) ↔
        (ds.takeWhile (isDigit 10) ≠ [] ∧ ds.dropWhile (isDigit 10) = []) := by
      intro ds
      rw [takeWhile_toLower, dropWhile_toLower, List.map_eq_nil_iff, ne_eq, List.map_eq_nil_iff]
    unfold validExponent
    simp only [List.map_cons, toLower_eq_e_iff]
    cases more with
    | nil => rfl
    | cons d ds =>
      by_cases hplus : d = '+'
      · subst hplus
        exact if_congr Iff.rfl (decide_eq_decide.mpr (hscan ds)) rfl
      by_cases hminus : d = '-'
      · subst hminus
        exact if_congr Iff.rfl (decide_eq_decide.mpr (hscan ds)) rfl
      have hplus' : d.toLower ≠ '+' := fun h => hplus ((toLower_eq_iff (by decide)).mp h)
      have hminus' : d.toLower ≠ '-' := fun h => hminus ((toLower_eq_iff (by decide)).mp h)
      simp [hplus, hminus, hplus', hminus']

theorem exponentOf_toLower (rest : List Char) :
    exponentOf (rest.map Char.toLower) = exponentOf rest := by
  cases rest with
  | nil => rfl
  | cons c more =>
    cases more with
    | nil => rfl
    | cons d ds =>
      by_cases hplus : d = '+'
      · subst hplus
        change ((digitsValue 10 (ds.map Char.toLower) : Nat) : Int) = _
        rw [digitsValue_toLower]
        rfl
      by_cases hminus : d = '-'
      · subst hminus
        change -((digitsValue 10 (ds.map Char.toLower) : Nat) : Int) = _
        rw [digitsValue_toLower]
        rfl
      have hplus' : d.toLower ≠ '+' := fun h => hplus ((toLower_eq_iff (by decide)).mp h)
      have hminus' : d.toLower ≠ '-' := fun h => hminus ((toLower_eq_iff (by decide)).mp h)
      have h := digitsValue_toLower 10 (d :: ds)
      simp only [List.map_cons] at h
      simp [exponentOf, hplus, hminus, hplus', hminus', h]

theorem validDecimal_toLower (t : List Char) :
    validDecimal (t.map Char.toLower) = validDecimal t := by
  unfold validDecimal
  simp only [takeWhile_toLower, dropWhile_toLower, fractionPart_toLower, validExponent_toLower,
    List.length_map]

theorem parseF64_toLower (t : List Char) : parseF64 (t.map Char.toLower) = parseF64 t := by
  unfold parseF64
  simp only [takeWhile_toLower, dropWhile_toLower, fractionPart_toLower, exponentOf_toLower,
    ← List.map_append, digitsValue_toLower, List.length_map]

/-! ## §6 Digits in a radix -/

theorem digitValue_lt {radix : Nat} (hradix : 0 < radix) (c : Char) :
    digitValue radix c < radix := by
  unfold digitValue
  cases h : toDigit radix c with
  | none => exact hradix
  | some d =>
    rw [toDigit, Option.filter_eq_some_iff, decide_eq_true_eq] at h
    exact h.2

theorem digitsValue_concat (radix : Nat) (ds : List Char) (c : Char) :
    digitsValue radix (ds ++ [c]) = digitsValue radix ds * radix + digitValue radix c := by
  simp [digitsValue]

theorem digitsValue_append (radix : Nat) (ds tail : List Char) :
    digitsValue radix (ds ++ tail) =
      digitsValue radix ds * radix ^ tail.length + digitsValue radix tail := by
  induction tail using List.reverseRecOn with
  | nil => simp [digitsValue]
  | append_singleton tail c ih =>
    rw [← List.append_assoc, digitsValue_concat, digitsValue_concat, ih, List.length_append,
      List.length_singleton, Nat.pow_succ]
    ring

theorem digitsValue_lt {radix : Nat} (hradix : 0 < radix) (ds : List Char) :
    digitsValue radix ds < radix ^ ds.length := by
  induction ds using List.reverseRecOn with
  | nil => exact Nat.one_pos
  | append_singleton ds c ih =>
    have hstep : (digitsValue radix ds + 1) * radix ≤ radix ^ ds.length * radix :=
      Nat.mul_le_mul_right radix ih
    have hc := digitValue_lt hradix c
    rw [digitsValue_concat, List.length_append, List.length_singleton, Nat.pow_succ]
    rw [Nat.add_mul, Nat.one_mul] at hstep
    omega

def roundedValue (radix : Nat) (ds : List Char) : Nat :=
  ds.foldl (fun a c => roundUnits (a * radix + digitValue radix c) 1) 0

theorem roundedValue_concat (radix : Nat) (ds : List Char) (c : Char) :
    roundedValue radix (ds ++ [c]) =
      roundUnits (roundedValue radix ds * radix + digitValue radix c) 1 := by
  simp [roundedValue]

section Radix

variable {b : Nat} (hb : 2 ^ b < 2 ^ 53)

include hb in
theorem parse_loop (ds : List Char) {a : Nat} (ha : IsFloat a) :
    ds.foldl (fun acc c => add (mul acc (ofNat (2 ^ b))) (ofNat (digitValue (2 ^ b) c))) (ofNat a) =
      ofNat (ds.foldl (fun a c => roundUnits (a * 2 ^ b + digitValue (2 ^ b) c) 1) a) := by
  induction ds generalizing a with
  | nil => rw [List.foldl_nil, List.foldl_nil]
  | cons c ds ih =>
    have hc := digitValue_lt (Nat.two_pow_pos b) c
    rw [List.foldl_cons, List.foldl_cons, mul_ofNat ha hb,
      add_ofNat (ha.mul_pow b) (Nat.lt_trans hc hb), ih (isFloat_roundUnits Nat.one_pos)]

include hb in
theorem parseRadix_eq {ds : List Char} (hds : Digits (2 ^ b) ds) :
    parseRadix ds (2 ^ b) = ofNat (roundedValue (2 ^ b) ds) := by
  have hall : ds.all (isDigit (2 ^ b)) = true := List.all_eq_true.mpr hds.2
  have hgood : ¬ (ds = [] ∨ ds.all (isDigit (2 ^ b)) = false) := by
    rintro (h | h)
    · exact hds.1 h
    · rw [hall] at h
      cases h
  rw [parseRadix, if_neg hgood, parse_loop hb ds (isFloat_of_lt (Nat.two_pow_pos 53))]
  rfl

theorem isFloat_roundedValue (ds : List Char) : IsFloat (roundedValue (2 ^ b) ds) := by
  induction ds using List.reverseRecOn with
  | nil => exact isFloat_of_lt (Nat.two_pow_pos 53)
  | append_singleton ds c _ =>
    rw [roundedValue_concat]
    exact isFloat_roundUnits Nat.one_pos

theorem roundedValue_of_lt {ds : List Char} (h : digitsValue (2 ^ b) ds < 2 ^ 53) :
    roundedValue (2 ^ b) ds = digitsValue (2 ^ b) ds := by
  induction ds using List.reverseRecOn with
  | nil => rfl
  | append_singleton ds c ih =>
    have hround := roundUnits_mul (isFloat_of_lt h) Nat.one_pos
    rw [Nat.mul_one, digitsValue_concat] at hround
    rw [digitsValue_concat] at h ⊢
    have hle : digitsValue (2 ^ b) ds ≤ digitsValue (2 ^ b) ds * 2 ^ b :=
      Nat.le_mul_of_pos_right _ (Nat.two_pow_pos b)
    rw [roundedValue_concat, ih (by omega), hround]

theorem roundUnits_digit {a d : Nat} (ha : IsFloat a) (hlarge : 2 ^ 53 ≤ a) (hd : d < 2 ^ b) :
    roundUnits (a * 2 ^ b + d) 1 = a * 2 ^ b := by
  have hmod : a % 2 ^ excess a = 0 := Nat.mod_eq_zero_of_dvd ha
  rw [roundUnits_append hlarge hd, hmod, if_pos (.inl (by rw [Nat.mul_zero]; exact Nat.two_pow_pos _)),
    Nat.pow_add, ← Nat.mul_assoc, Nat.div_mul_cancel ha]

theorem roundedValue_append {head tail : List Char} (hlarge : 2 ^ 53 ≤ roundedValue (2 ^ b) head) :
    roundedValue (2 ^ b) (head ++ tail) =
      roundedValue (2 ^ b) head * 2 ^ (b * tail.length) := by
  induction tail using List.reverseRecOn with
  | nil => simp
  | append_singleton tail c ih =>
    have hfloat := isFloat_roundedValue (b := b) (head ++ tail)
    have hle : 2 ^ 53 ≤ roundedValue (2 ^ b) (head ++ tail) := by
      rw [ih]
      exact hlarge.trans (Nat.le_mul_of_pos_right _ (Nat.two_pow_pos _))
    rw [← List.append_assoc, roundedValue_concat,
      roundUnits_digit hfloat hle (digitValue_lt (Nat.two_pow_pos b) c), ih, Nat.mul_assoc,
      ← Nat.pow_add, List.length_append, List.length_singleton, Nat.mul_add, Nat.mul_one]

theorem exists_head {ds : List Char} (h : 2 ^ 53 ≤ digitsValue (2 ^ b) ds) :
    ∃ head tail, ds = head ++ tail ∧ 2 ^ 53 ≤ digitsValue (2 ^ b) head ∧
      digitsValue (2 ^ b) head.dropLast < 2 ^ 53 := by
  induction ds using List.reverseRecOn with
  | nil =>
    change 2 ^ 53 ≤ 0 at h
    omega
  | append_singleton ds c ih =>
    rcases Nat.lt_or_ge (digitsValue (2 ^ b) ds) (2 ^ 53) with hlt | hge
    · refine ⟨ds ++ [c], [], (List.append_nil _).symm, h, ?_⟩
      rwa [List.dropLast_concat]
    · obtain ⟨head, tail, heq, hlarge, hsmall⟩ := ih hge
      exact ⟨head, tail ++ [c], by rw [heq, List.append_assoc], hlarge, hsmall⟩

theorem roundedValue_head {head : List Char} (hlarge : 2 ^ 53 ≤ digitsValue (2 ^ b) head)
    (hsmall : digitsValue (2 ^ b) head.dropLast < 2 ^ 53) :
    roundedValue (2 ^ b) head = roundUnits (digitsValue (2 ^ b) head) 1 := by
  have hne : head ≠ [] := by
    rintro rfl
    change 2 ^ 53 ≤ 0 at hlarge
    omega
  have hsplit := List.dropLast_concat_getLast hne
  rw [← hsplit, roundedValue_concat, roundedValue_of_lt hsmall, digitsValue_concat]

/-- The condition of a tie that is rounded down though digits follow. -/
def LostTie (p low : Nat) : Prop :=
  p % 2 ^ excess p = 2 ^ (excess p - 1) ∧ p / 2 ^ excess p % 2 = 0 ∧ 0 < low

theorem pow_le_floor {n k e : Nat} (hpos : 0 < n / 2 ^ k) (h : 2 ^ e ≤ n) :
    2 ^ e ≤ n / 2 ^ k * 2 ^ k := by
  rcases Nat.le_total k e with hle | hge
  · have hsplit : 2 ^ e = 2 ^ (e - k) * 2 ^ k := by rw [← Nat.pow_add, Nat.sub_add_cancel hle]
    rw [hsplit] at h ⊢
    exact Nat.mul_le_mul_right _ ((Nat.le_div_iff_mul_le (Nat.two_pow_pos k)).mpr h)
  · exact (Nat.pow_le_pow_right Nat.two_pos hge).trans (Nat.le_mul_of_pos_left _ hpos)

theorem round_twice_iff {p j low : Nat} (hp : 2 ^ 53 ≤ p) (hlow : low < 2 ^ j) :
    ofNat (roundUnits p 1 * 2 ^ j) = ofNat (roundUnits (p * 2 ^ j + low) 1) ↔
      ¬ (LostTie p low ∧ p * 2 ^ j + low < 2 ^ 1024) := by
  obtain ⟨hk, hexcess⟩ := excess_append hp hlow
  have hhead : roundUnits (p * 2 ^ 0 + 0) 1 = _ := roundUnits_append hp Nat.one_pos
  have hall := roundUnits_append hp hlow
  rw [Nat.pow_zero, Nat.mul_one, Nat.add_zero, Nat.add_zero] at hhead
  have hpow : 2 ^ excess p = 2 * 2 ^ (excess p - 1) := by
    rw [← Nat.pow_succ', Nat.succ_eq_add_one, Nat.sub_add_cancel (Nat.pos_of_ne_zero hk)]
  have hfloor : (p * 2 ^ j + low) / 2 ^ (excess p + j) = p / 2 ^ excess p := by
    rw [Nat.pow_add, Nat.mul_comm (2 ^ excess p), ← Nat.div_div_eq_div_mul, Nat.add_comm,
      Nat.add_mul_div_right _ _ (Nat.two_pow_pos j), Nat.div_eq_of_lt hlow, Nat.zero_add]
  have hfloat := isFloat_roundUnits (n := p) Nat.one_pos
  rw [ofNat_inj (hfloat.mul_pow j) (isFloat_roundUnits Nat.one_pos), overflow_le_mul_iff,
    overflow_le_mul_iff, hhead, hall, Nat.mul_assoc, ← Nat.pow_add]
  by_cases htie : LostTie p low
  · obtain ⟨hmod, heven, hpos⟩ := htie
    have hhalf : 2 * (p % 2 ^ excess p) = 2 ^ excess p := by rw [hmod, ← hpow]
    rw [if_pos (.inr ⟨hhalf, rfl, heven⟩), if_neg (by omega)]
    have hquot : 0 < p / 2 ^ excess p := by
      refine Nat.div_pos ?_ (Nat.two_pow_pos _)
      exact (Nat.pow_le_pow_right Nat.two_pos (by omega)).trans (pow_excess_le hk)
    have hlarge : 2 ^ 1024 ≤ p / 2 ^ excess p * 2 ^ (excess p + j) ↔
        2 ^ 1024 ≤ p * 2 ^ j + low := by
      rw [← hfloor] at hquot ⊢
      exact ⟨fun h => h.trans (Nat.div_mul_le_self _ _), pow_le_floor hquot⟩
    have hne : p / 2 ^ excess p * 2 ^ (excess p + j) ≠
        (p / 2 ^ excess p + 1) * 2 ^ (excess p + j) := by
      rw [Nat.add_mul, Nat.one_mul]
      have := Nat.two_pow_pos (excess p + j)
      omega
    constructor
    · rintro (heq | ⟨hle, -⟩) ⟨-, hlt⟩
      · exact hne heq
      · exact absurd hlt (Nat.not_lt.mpr (hlarge.mp hle))
    · intro h
      have hle := hlarge.mpr (Nat.not_lt.mp fun hlt => h ⟨⟨hmod, heven, hpos⟩, hlt⟩)
      refine .inr ⟨hle, hle.trans (Nat.mul_le_mul_right _ (Nat.le_succ _))⟩
  · refine iff_of_true (.inl ?_) fun h => htie h.1
    have hcond : (2 * (p % 2 ^ excess p) < 2 ^ excess p ∨
        2 * (p % 2 ^ excess p) = 2 ^ excess p ∧ 0 = 0 ∧ p / 2 ^ excess p % 2 = 0) ↔
        (2 * (p % 2 ^ excess p) < 2 ^ excess p ∨
        2 * (p % 2 ^ excess p) = 2 ^ excess p ∧ low = 0 ∧ p / 2 ^ excess p % 2 = 0) := by
      refine or_congr_right (and_congr_right fun hhalf => ?_)
      constructor
      · rintro ⟨-, heven⟩
        refine ⟨?_, heven⟩
        by_contra hne
        exact htie ⟨by omega, heven, Nat.pos_of_ne_zero hne⟩
      · exact fun h => ⟨rfl, h.2⟩
    by_cases hdown : 2 * (p % 2 ^ excess p) < 2 ^ excess p ∨
        2 * (p % 2 ^ excess p) = 2 ^ excess p ∧ 0 = 0 ∧ p / 2 ^ excess p % 2 = 0
    · rw [if_pos hdown, if_pos (hcond.mp hdown), Nat.add_zero (excess p)]
    · rw [if_neg hdown, if_neg fun h => hdown (hcond.mpr h), Nat.add_zero (excess p)]

/-- **Digits in a radix are read as their number exactly if** they lose no tie. -/
theorem roundedValue_iff (ds : List Char) :
    ofNat (roundedValue (2 ^ b) ds) = ofNat (roundUnits (digitsValue (2 ^ b) ds) 1) ↔
      ¬ Misrounded (2 ^ b) ds := by
  have hsplit : ∀ head tail, ds = head ++ tail → 2 ^ 53 ≤ digitsValue (2 ^ b) head →
      digitsValue (2 ^ b) head.dropLast < 2 ^ 53 →
      (ofNat (roundedValue (2 ^ b) ds) = ofNat (roundUnits (digitsValue (2 ^ b) ds) 1) ↔
        ¬ (LostTie (digitsValue (2 ^ b) head) (digitsValue (2 ^ b) tail) ∧
          digitsValue (2 ^ b) ds < 2 ^ 1024)) := by
    rintro head tail rfl hlarge hsmall
    have hround := roundedValue_head hlarge hsmall
    have hle : 2 ^ 53 ≤ roundedValue (2 ^ b) head := by
      rw [hround]
      exact le_roundUnits (isFloat_mul_pow (m := 2 ^ 53) (k := 0) (Nat.le_refl _)) Nat.one_pos
        (by omega)
    have hlow := digitsValue_lt (Nat.two_pow_pos b) tail
    rw [← Nat.pow_mul] at hlow
    rw [roundedValue_append hle, hround, digitsValue_append, ← Nat.pow_mul]
    exact round_twice_iff hlarge hlow
  rcases Nat.lt_or_ge (digitsValue (2 ^ b) ds) (2 ^ 53) with hlt | hge
  · have hround := roundUnits_mul (isFloat_of_lt hlt) Nat.one_pos
    rw [Nat.mul_one] at hround
    refine iff_of_true (by rw [roundedValue_of_lt hlt, hround]) ?_
    rintro ⟨head, tail, rfl, hlarge, -⟩
    rw [digitsValue_append] at hlt
    have := Nat.le_mul_of_pos_right (digitsValue (2 ^ b) head)
      (Nat.pow_pos (n := tail.length) (Nat.two_pow_pos b))
    omega
  · constructor
    · rintro heq ⟨head, tail, hds, hlarge, hsmall, hmod, heven, hpos, hfits⟩
      exact (hsplit head tail hds hlarge hsmall).mp heq ⟨⟨hmod, heven, hpos⟩, hfits⟩
    · intro h
      obtain ⟨head, tail, hds, hlarge, hsmall⟩ := exists_head hge
      refine (hsplit head tail hds hlarge hsmall).mpr ?_
      rintro ⟨⟨hmod, heven, hpos⟩, hfits⟩
      exact h ⟨head, tail, hds, hlarge, hsmall, hmod, heven, hpos, hfits⟩

end Radix

/-! ## §7 Words -/

def readWord (negative : Bool) (t : List Char) : BitVec 64 :=
  match magnitude (t.map Char.toLower) with
  | none => nan
  | some m => if negative then neg m else m

theorem signed_ofUnits (negative : Bool) (u : Nat) :
    (if negative = true then neg (ofUnits false u) else ofUnits false u) = ofUnits negative u := by
  cases negative with
  | false => rfl
  | true => exact neg_ofUnits false u

theorem signed_scaled (negative : Bool) (n : Nat) (e : Int) :
    (if negative = true then neg (scaled false n e) else scaled false n e) =
      scaled negative n e := by
  unfold scaled
  by_cases he : 0 ≤ e
  · simp only [if_pos he]
    exact signed_ofUnits negative _
  · simp only [if_neg he]
    exact signed_ofUnits negative _

theorem signed_infinity (negative : Bool) :
    (if negative = true then neg (infinity false) else infinity false) = infinity negative := by
  cases negative with
  | false => rw [if_neg (by decide)]
  | true => rw [if_pos rfl, neg_infinity, Bool.not_false]

theorem readWord_of_magnitude (negative : Bool) {m : BitVec 64}
    (h : magnitude (t.map Char.toLower) = some m) :
    readWord negative t = if negative = true then neg m else m := by
  rw [readWord, h]

theorem readWord_infinity (negative : Bool) (h : t.map Char.toLower = "infinity".toList) :
    readWord negative t = infinity negative := by
  have hmagnitude : magnitude (t.map Char.toLower) = some (infinity false) := by
    unfold magnitude
    exact if_pos h
  rw [readWord_of_magnitude negative hmagnitude, signed_infinity]

theorem not_infinity_of_valid (h : validDecimal t = true) :
    t.map Char.toLower ≠ "infinity".toList := by
  intro heq
  rw [← validDecimal_toLower, heq] at h
  exact absurd h (by decide)

theorem not_radix_of_valid (hc : isDigit 10 c = false) (hpoint : c ≠ '.')
    (he : ¬ (c = 'e' ∨ c = 'E')) : validDecimal ('0' :: c :: ds) = false := by
  have htake : ('0' :: c :: ds).takeWhile (isDigit 10) = ['0'] := by
    rw [List.takeWhile_cons_of_pos (by decide), List.takeWhile_cons_of_neg (by rw [hc]; decide)]
  have hdrop : ('0' :: c :: ds).dropWhile (isDigit 10) = c :: ds := by
    rw [List.dropWhile_cons_of_pos (by decide), List.dropWhile_cons_of_neg (by rw [hc]; decide)]
  unfold validDecimal
  rw [htake, hdrop]
  simp [fractionPart, hpoint, validExponent, he]

theorem magnitude_of_not_radix {lower : List Char} (hinf : lower ≠ "infinity".toList)
    (hradix : ∀ c ds, lower = '0' :: c :: ds → c ≠ 'x' ∧ c ≠ 'o' ∧ c ≠ 'b') :
    magnitude lower = if validDecimal lower then some (parseF64 lower) else none := by
  unfold magnitude
  rw [if_neg hinf]
  split
  case h_1 hex => exact absurd rfl (hradix 'x' hex rfl).1
  case h_2 oct => exact absurd rfl (hradix 'o' oct rfl).2.1
  case h_3 bin => exact absurd rfl (hradix 'b' bin rfl).2.2
  case h_4 => rfl

theorem magnitude_of_valid {lower : List Char} (h : validDecimal lower = true)
    (hinf : lower ≠ "infinity".toList) : magnitude lower = some (parseF64 lower) := by
  refine (magnitude_of_not_radix hinf ?_).trans (if_pos h)
  rintro c ds rfl
  refine ⟨?_, ?_, ?_⟩ <;> rintro rfl <;>
    rw [not_radix_of_valid (by decide) (by decide) (by decide)] at h <;> cases h

theorem readWord_decimal (negative : Bool) (h : StrUnsignedDecimalLiteral t (.decimal n e)) :
    readWord negative t = scaled negative n e := by
  obtain ⟨hvalid, hparse⟩ := valid_of_literal h
  have hlower : validDecimal (t.map Char.toLower) = true := by rw [validDecimal_toLower, hvalid]
  have hmagnitude := magnitude_of_valid hlower (not_infinity_of_valid hvalid)
  rw [parseF64_toLower, hparse] at hmagnitude
  rw [readWord_of_magnitude negative hmagnitude, signed_scaled]

theorem parseRadix_toLower (radix : Nat) (ds : List Char) :
    parseRadix (ds.map Char.toLower) radix = parseRadix ds radix := by
  simp [parseRadix, List.foldl_map, digitValue, toDigit_toLower, Function.comp_def]

theorem RadixLetter.pow {radix : Nat} (h : RadixLetter letter radix) :
    ∃ b, radix = 2 ^ b ∧ 2 ^ b < 2 ^ 53 := by
  cases h with
  | hex => exact ⟨4, rfl, by decide⟩
  | upperHex => exact ⟨4, rfl, by decide⟩
  | octal => exact ⟨3, rfl, by decide⟩
  | upperOctal => exact ⟨3, rfl, by decide⟩
  | binary => exact ⟨1, rfl, by decide⟩
  | upperBinary => exact ⟨1, rfl, by decide⟩

theorem magnitude_radix {radix : Nat} (h : RadixLetter letter radix) (ds : List Char) :
    magnitude ('0' :: letter.toLower :: ds) = some (parseRadix ds radix) := by
  have hinf : ∀ c, '0' :: c :: ds ≠ "infinity".toList := by
    intro c heq
    cases heq
  cases h <;> exact if_neg (hinf _)

theorem readWord_radix (negative : Bool) {radix : Nat} (h : NonDecimalIntegerLiteral t radix ds) :
    readWord negative t = ofUnits negative (roundedValue radix ds * unitsPerOne) := by
  obtain ⟨hletter, hds⟩ := h
  obtain ⟨b, rfl, hb⟩ := hletter.pow
  rename_i letter
  have hmagnitude : magnitude (('0' :: letter :: ds).map Char.toLower) =
      some (ofNat (roundedValue (2 ^ b) ds)) := by
    rw [← parseRadix_eq hb hds, ← parseRadix_toLower]
    exact magnitude_radix hletter (ds.map Char.toLower)
  rw [readWord_of_magnitude negative hmagnitude, ofNat, signed_ofUnits]

theorem eq_of_toLower (h : c.toLower = a) : c = a ∨ c.toNat + 32 = a.toNat := by
  have hc := toNat_toLower c
  rw [h] at hc
  split at hc
  · exact .inr hc.symm
  · exact .inl (char_ext hc.symm)

theorem exists_radixLetter
    (h : letter.toLower = 'x' ∨ letter.toLower = 'o' ∨ letter.toLower = 'b') :
    ∃ radix, RadixLetter letter radix := by
  rcases h with h | h | h
  · rcases eq_of_toLower h with rfl | hupper
    · exact ⟨16, .hex⟩
    · obtain rfl : letter = 'X' := char_ext (Nat.add_right_cancel hupper)
      exact ⟨16, .upperHex⟩
  · rcases eq_of_toLower h with rfl | hupper
    · exact ⟨8, .octal⟩
    · obtain rfl : letter = 'O' := char_ext (Nat.add_right_cancel hupper)
      exact ⟨8, .upperOctal⟩
  · rcases eq_of_toLower h with rfl | hupper
    · exact ⟨2, .binary⟩
    · obtain rfl : letter = 'B' := char_ext (Nat.add_right_cancel hupper)
      exact ⟨2, .upperBinary⟩

theorem parseRadix_of_not_digits {radix : Nat} (h : ¬ Digits radix ds) :
    parseRadix ds radix = nan := by
  refine if_pos ?_
  by_contra hgood
  obtain ⟨hne, hall⟩ := not_or.mp hgood
  rw [Bool.not_eq_false, List.all_eq_true] at hall
  exact h ⟨hne, hall⟩

/-- **Another word is read as a NaN.** -/
theorem isNaN_readWord (negative : Bool) (hinf : t.map Char.toLower ≠ "infinity".toList)
    (hradix : ∀ radix ds, ¬ NonDecimalIntegerLiteral t radix ds)
    (hdecimal : validDecimal t = false) : IsNaN (readWord negative t) := by
  by_cases hletter : ∃ letter ds, t = '0' :: letter :: ds ∧
      (letter.toLower = 'x' ∨ letter.toLower = 'o' ∨ letter.toLower = 'b')
  · obtain ⟨letter, ds, rfl, hletter⟩ := hletter
    obtain ⟨radix, hletter⟩ := exists_radixLetter hletter
    have hds : ¬ Digits radix ds := fun hds => hradix radix ds ⟨hletter, hds⟩
    have hmagnitude : magnitude (('0' :: letter :: ds).map Char.toLower) = some nan := by
      rw [← parseRadix_of_not_digits hds, ← parseRadix_toLower]
      exact magnitude_radix hletter (ds.map Char.toLower)
    rw [readWord_of_magnitude negative hmagnitude]
    cases negative with
    | false => exact isNaN_nan
    | true => exact isNaN_neg.mpr isNaN_nan
  · have hmagnitude : magnitude (t.map Char.toLower) = none := by
      refine (magnitude_of_not_radix hinf ?_).trans (if_neg ?_)
      · intro c ds heq
        obtain ⟨zero, rest, rfl, hzero, hrest⟩ := List.map_eq_cons_iff.mp heq
        obtain ⟨letter, tail, rfl, hc, -⟩ := List.map_eq_cons_iff.mp hrest
        obtain rfl : zero = '0' := (toLower_eq_iff (by decide)).mp hzero
        refine ⟨?_, ?_, ?_⟩ <;> rintro rfl <;> refine hletter ⟨letter, tail, rfl, ?_⟩
        · exact .inl hc
        · exact .inr (.inl hc)
        · exact .inr (.inr hc)
      · rw [validDecimal_toLower, hdecimal]
        decide
    rw [readWord, hmagnitude]
    exact isNaN_nan

/-! ## §8 Strings -/

theorem surrounded_iff (ht : ∀ c ∈ t, Solid c) :
    Surrounded isWs s t ↔ trim s = t.map unit :=
  ⟨trim_of_surrounded ht, surrounded_of_trim⟩

theorem ExponentPart.solid (h : ExponentPart exp e) :
    ∀ c ∈ exp, Solid c := by
  have hletter : ∀ c, c = 'e' ∨ c = 'E' → Solid c := by
    rintro c (rfl | rfl) <;> decide
  cases h with
  | absent => exact fun c hc => by cases hc
  | plain hc hds => exact List.forall_mem_cons.mpr ⟨hletter _ hc, hds.solid⟩
  | plus hc hds =>
    exact List.forall_mem_cons.mpr ⟨hletter _ hc, List.forall_mem_cons.mpr ⟨by decide, hds.solid⟩⟩
  | minus hc hds =>
    exact List.forall_mem_cons.mpr ⟨hletter _ hc, List.forall_mem_cons.mpr ⟨by decide, hds.solid⟩⟩

theorem StrUnsignedDecimalLiteral.solid (h : StrUnsignedDecimalLiteral t m) : ∀ c ∈ t, Solid c := by
  cases h with
  | infinity => exact solid_of_all (by decide)
  | point hwhole hfrac hexp =>
    rename_i whole frac exp e
    have hfrac' : ∀ c ∈ frac, Solid c := by
      rcases hfrac with rfl | hfrac
      · exact fun c hc => by cases hc
      · exact hfrac.solid
    exact List.forall_mem_append.mpr ⟨List.forall_mem_append.mpr
      ⟨hwhole.solid, List.forall_mem_cons.mpr ⟨by decide, hfrac'⟩⟩, hexp.solid⟩
  | frac hfrac hexp =>
    exact List.forall_mem_append.mpr
      ⟨List.forall_mem_cons.mpr ⟨by decide, hfrac.solid⟩, hexp.solid⟩
  | whole hwhole hexp => exact List.forall_mem_append.mpr ⟨hwhole.solid, hexp.solid⟩

theorem NonDecimalIntegerLiteral.solid {radix : Nat} (h : NonDecimalIntegerLiteral t radix ds) :
    ∀ c ∈ t, Solid c := by
  obtain ⟨hletter, hds⟩ := h
  rename_i letter
  have hsolid : Solid letter := by cases hletter <;> decide
  exact List.forall_mem_cons.mpr ⟨by decide, List.forall_mem_cons.mpr ⟨hsolid, hds.solid⟩⟩

theorem StrNumericLiteral.solid (h : StrNumericLiteral t negative m) : ∀ c ∈ t, Solid c := by
  cases h with
  | unsigned h => exact h.solid
  | plus h => exact List.forall_mem_cons.mpr ⟨by decide, h.solid⟩
  | minus h => exact List.forall_mem_cons.mpr ⟨by decide, h.solid⟩
  | radix h => exact h.solid

theorem StrUnsignedDecimalLiteral.head (h : StrUnsignedDecimalLiteral t m) :
    ∃ c rest, t = c :: rest ∧ c ≠ '+' ∧ c ≠ '-' := by
  have hdigits : ∀ {ds : List Char}, Digits 10 ds →
      ∃ c rest, ds = c :: rest ∧ c ≠ '+' ∧ c ≠ '-' := by
    intro ds hds
    cases ds with
    | nil => exact absurd rfl hds.1
    | cons c rest =>
      have hc := hds.2 c List.mem_cons_self
      refine ⟨c, rest, rfl, ?_, ?_⟩ <;> rintro rfl <;> exact absurd hc (by decide)
  cases h with
  | infinity => exact ⟨_, _, rfl, by decide, by decide⟩
  | point hwhole hfrac hexp =>
    obtain ⟨c, rest, rfl, hsigns⟩ := hdigits hwhole
    exact ⟨c, _, rfl, hsigns⟩
  | frac hfrac hexp => exact ⟨_, _, rfl, by decide, by decide⟩
  | whole hwhole hexp =>
    obtain ⟨c, rest, rfl, hsigns⟩ := hdigits hwhole
    exact ⟨c, _, rfl, hsigns⟩

/-- **What the grammar gives**, by the trimmed string. -/
theorem literal_iff (s : List (BitVec 16)) (v : BitVec 64) :
    StringNumericLiteral isWs s v ↔
      (trim s = [] ∧ v = ofNat 0) ∨
      ∃ t negative m, trim s = t.map unit ∧ StrNumericLiteral t negative m ∧
        v = m.number negative := by
  constructor
  · intro h
    cases h with
    | blank h => exact .inl ⟨trim_eq_nil_iff.mpr h, rfl⟩
    | literal hs h => exact .inr ⟨_, _, _, (surrounded_iff h.solid).mp hs, h, rfl⟩
  · rintro (⟨hnil, hv⟩ | ⟨t, negative, m, htrim, h, hv⟩)
    · rw [hv]
      exact .blank (trim_eq_nil_iff.mp hnil)
    · rw [hv]
      exact .literal ((surrounded_iff h.solid).mpr htrim) h

theorem unsigned_infinite (h : StrUnsignedDecimalLiteral t .infinite) :
    t = "Infinity".toList := by
  generalize hm : Magnitude.infinite = m at h
  cases h with
  | infinity => rfl
  | point => cases hm
  | frac => cases hm
  | whole => cases hm

theorem readWord_unsigned (negative : Bool) (h : StrUnsignedDecimalLiteral t m) :
    readWord negative t = m.number negative := by
  cases m with
  | infinite =>
    rw [unsigned_infinite h, readWord_infinity negative (by decide), Magnitude.number]
  | decimal n e => exact readWord_decimal negative h

def MisspelledWord (t : List Char) : Prop :=
  t.map Char.toLower = "infinity".toList ∧ t ≠ "Infinity".toList

theorem not_unsigned_of_misspelled (h : MisspelledWord t) (m : Magnitude) :
    ¬ StrUnsignedDecimalLiteral t m := by
  intro hliteral
  cases m with
  | infinite => exact h.2 (unsigned_infinite hliteral)
  | decimal n e => exact not_infinity_of_valid (valid_of_literal hliteral).1 h.1

theorem not_unsigned_of_radix {radix : Nat} (h : NonDecimalIntegerLiteral t radix ds)
    (m : Magnitude) :
    ¬ StrUnsignedDecimalLiteral t m := by
  intro hliteral
  obtain ⟨hletter, hds⟩ := h
  cases m with
  | infinite => cases unsigned_infinite hliteral
  | decimal n e =>
    have hvalid := (valid_of_literal hliteral).1
    cases hletter <;> rw [not_radix_of_valid (by decide) (by decide) (by decide)] at hvalid <;>
      cases hvalid

theorem isFloat_radix {radix : Nat} (h : NonDecimalIntegerLiteral t radix ds) :
    IsFloat (roundedValue radix ds) := by
  obtain ⟨hletter, hds⟩ := h
  obtain ⟨b, rfl, -⟩ := hletter.pow
  exact isFloat_roundedValue ds

theorem readWord_radix_iff {radix : Nat} (h : NonDecimalIntegerLiteral t radix ds) :
    readWord false t = scaled false (digitsValue radix ds) 0 ↔ ¬ Misrounded radix ds := by
  rw [readWord_radix false h]
  obtain ⟨hletter, hds⟩ := h
  obtain ⟨b, rfl, -⟩ := hletter.pow
  rw [← roundedValue_iff ds]
  have hscaled : scaled false (digitsValue (2 ^ b) ds) 0 =
      ofNat (roundUnits (digitsValue (2 ^ b) ds) 1) := by
    rw [scaled, if_pos (le_refl 0), nearest, Int.toNat_zero, Nat.pow_zero, Nat.mul_one, ofNat]
    exact congrArg _ (roundUnits_mul_pow _ 1074)
  rw [hscaled]
  unfold ofNat
  exact Iff.rfl

/-! ## §9 The reading -/

/-- The sign of a trimmed string. -/
inductive SignOf : Char → Bool → Prop
  | plus : SignOf '+' false
  | minus : SignOf '-' true

/-- What is left of a trimmed string, and how it is read. -/
inductive Reading (s : List (BitVec 16)) : Prop
  | blank (h : trim s = []) (hv : stringToNumber s = ofNat 0)
  | word (t : List Char) (hne : t ≠ []) (h : trim s = t.map unit) (ht : Ascii t)
      (hsign : ∀ c rest, t = c :: rest → c ≠ '+' ∧ c ≠ '-')
      (hv : stringToNumber s = readWord false t)
  | signed (sign : Char) (negative : Bool) (t : List Char) (hsign : SignOf sign negative)
      (h : trim s = (sign :: t).map unit) (ht : Ascii (sign :: t))
      (hv : stringToNumber s = readWord negative t)
  | other (h : ∀ t, Ascii t → trim s = t.map unit → t = ['+'] ∨ t = ['-']) (hne : trim s ≠ [])
      (hv : IsNaN (stringToNumber s))

theorem splitSign_cases (u : List (BitVec 16)) :
    (∃ sign negative more, SignOf sign negative ∧ u = unit sign :: more ∧
      splitSign u = (negative, more)) ∨
    (splitSign u = (false, u) ∧ ∀ c rest, u = c :: rest → c ≠ unit '+' ∧ c ≠ unit '-') := by
  cases u with
  | nil => exact .inr ⟨rfl, fun c rest h => by cases h⟩
  | cons c more =>
    by_cases hplus : c = unit '+'
    · exact .inl ⟨'+', false, more, .plus, by rw [hplus], if_pos hplus⟩
    · by_cases hminus : c = unit '-'
      · exact .inl ⟨'-', true, more, .minus, by rw [hminus], (if_neg hplus).trans (if_pos hminus)⟩
      · refine .inr ⟨(if_neg hplus).trans (if_neg hminus), fun c' rest h => ?_⟩
        cases h
        exact ⟨hplus, hminus⟩

theorem SignOf.ascii {sign : Char} (h : SignOf sign negative) :
    sign.toNat < 128 := by
  cases h <;> decide

/-- **Every string has a reading.** -/
theorem reading (s : List (BitVec 16)) : Reading s := by
  by_cases hnil : trim s = []
  · exact .blank hnil (if_pos hnil)
  have hcode : stringToNumber s =
      if (splitSign (trim s)).2 = [] then nan
      else (asciiText (splitSign (trim s)).2).elim nan (readWord (splitSign (trim s)).1) := by
    unfold stringToNumber
    simp only [hnil, if_false]
    cases asciiText (splitSign (trim s)).2 <;> rfl
  rcases splitSign_cases (trim s) with ⟨sign, negative, more, hsign, htrim, hsplit⟩ |
    ⟨hsplit, hnone⟩
  · rw [hsplit] at hcode
    dsimp only at hcode
    by_cases hmore : more = []
    · rw [if_pos hmore] at hcode
      refine .other (fun t ht heq => ?_) hnil (hcode ▸ isNaN_nan)
      rw [htrim, hmore] at heq
      have hsingle : [sign] = t := by
        refine map_unit_injective ?_ ht heq
        exact fun c hc => by rw [List.mem_singleton.mp hc]; exact hsign.ascii
      rw [← hsingle]
      cases hsign
      · exact .inl rfl
      · exact .inr rfl
    · rw [if_neg hmore] at hcode
      cases htext : asciiText more with
      | none =>
        rw [htext] at hcode
        refine .other (fun t ht heq => ?_) hnil (hcode ▸ isNaN_nan)
        rw [htrim] at heq
        obtain ⟨c, rest, rfl, -, hrest⟩ := List.map_eq_cons_iff.mp heq.symm
        have hsome := asciiText_map (t := rest) fun a ha => ht a (List.mem_cons_of_mem c ha)
        rw [hrest, htext] at hsome
        cases hsome
      | some text =>
        rw [htext] at hcode
        obtain ⟨rfl, hascii⟩ := map_unit_of_asciiText htext
        exact .signed sign negative text hsign htrim
          (List.forall_mem_cons.mpr ⟨hsign.ascii, hascii⟩) hcode
  · rw [hsplit] at hcode
    dsimp only at hcode
    rw [if_neg hnil] at hcode
    cases htext : asciiText (trim s) with
    | none =>
      rw [htext] at hcode
      refine .other (fun t ht heq => ?_) hnil (hcode ▸ isNaN_nan)
      rw [heq, asciiText_map ht] at htext
      cases htext
    | some text =>
      rw [htext] at hcode
      obtain ⟨heq, hascii⟩ := map_unit_of_asciiText htext
      refine .word text (fun hne => hnil (by rw [heq, hne]; rfl)) heq hascii (fun c rest hrest => ?_) hcode
      subst hrest
      obtain ⟨hplus, hminus⟩ := hnone (unit c) (rest.map unit) heq
      exact ⟨fun hc => hplus (by rw [hc]), fun hc => hminus (by rw [hc])⟩

theorem MisspelledWord.solid (h : MisspelledWord t) : ∀ c ∈ t, Solid c := by
  intro c hc
  have hmem : c.toLower ∈ "infinity".toList := h.1 ▸ List.mem_map.mpr ⟨c, hc, rfl⟩
  have hall : ∀ c ∈ "infinity".toList, Solid c := solid_of_all (by decide)
  exact solid_toLower.mp (hall _ hmem)

def MisspelledText (t : List Char) : Prop := ∃ word, MaybeSigned t word ∧ MisspelledWord word

def SignedRadixText (t : List Char) : Prop :=
  ∃ sign negative w radix ds, SignOf sign negative ∧ t = sign :: w ∧
    NonDecimalIntegerLiteral w radix ds

def TwiceRoundedText (t : List Char) : Prop :=
  ∃ radix ds, NonDecimalIntegerLiteral t radix ds ∧ Misrounded radix ds

theorem MisspelledText.solid (h : MisspelledText t) : ∀ c ∈ t, Solid c := by
  obtain ⟨word, rfl | rfl | rfl, hword⟩ := h
  · exact hword.solid
  · exact List.forall_mem_cons.mpr ⟨by decide, hword.solid⟩
  · exact List.forall_mem_cons.mpr ⟨by decide, hword.solid⟩

theorem SignedRadixText.solid (h : SignedRadixText t) : ∀ c ∈ t, Solid c := by
  obtain ⟨sign, negative, w, radix, ds, hsign, rfl, hw⟩ := h
  refine List.forall_mem_cons.mpr ⟨?_, hw.solid⟩
  cases hsign <;> decide

theorem TwiceRoundedText.solid (h : TwiceRoundedText t) : ∀ c ∈ t, Solid c := by
  obtain ⟨radix, ds, hw, -⟩ := h
  exact hw.solid

theorem misspelled_iff (s : List (BitVec 16)) :
    Misspelled s ↔ ∃ t, trim s = t.map unit ∧ MisspelledText t := by
  constructor
  · rintro ⟨t, word, hs, ht, hword⟩
    have htext : MisspelledText t := ⟨word, ht, hword⟩
    exact ⟨t, (surrounded_iff htext.solid).mp hs, htext⟩
  · rintro ⟨t, htrim, htext⟩
    have hs := (surrounded_iff htext.solid).mpr htrim
    obtain ⟨word, ht, hword⟩ := htext
    exact ⟨t, word, hs, ht, hword⟩

theorem signedRadix_iff (s : List (BitVec 16)) :
    SignedRadix s ↔ ∃ t, trim s = t.map unit ∧ SignedRadixText t := by
  constructor
  · rintro ⟨w, sign, radix, ds, hs, hsign, hw⟩
    have htext : SignedRadixText (sign :: w) := by
      rcases hsign with rfl | rfl
      · exact ⟨'+', false, w, radix, ds, .plus, rfl, hw⟩
      · exact ⟨'-', true, w, radix, ds, .minus, rfl, hw⟩
    exact ⟨sign :: w, (surrounded_iff htext.solid).mp hs, htext⟩
  · rintro ⟨t, htrim, htext⟩
    have hs := (surrounded_iff htext.solid).mpr htrim
    obtain ⟨sign, negative, w, radix, ds, hsign, rfl, hw⟩ := htext
    refine ⟨w, sign, radix, ds, hs, ?_, hw⟩
    cases hsign
    · exact .inl rfl
    · exact .inr rfl

theorem twiceRounded_iff (s : List (BitVec 16)) :
    TwiceRounded s ↔ ∃ t, trim s = t.map unit ∧ TwiceRoundedText t := by
  constructor
  · rintro ⟨t, radix, ds, hs, h, hround⟩
    exact ⟨t, (surrounded_iff h.solid).mp hs, radix, ds, h, hround⟩
  · rintro ⟨t, htrim, radix, ds, h, hround⟩
    exact ⟨t, radix, ds, (surrounded_iff h.solid).mpr htrim, h, hround⟩

theorem exists_text_iff {Q : List Char → Prop} (htrim : trim s = t.map unit) (ht : Ascii t)
    (hQ : ∀ {t'}, Q t' → ∀ c ∈ t', Solid c) :
    (∃ t', trim s = t'.map unit ∧ Q t') ↔ Q t := by
  constructor
  · rintro ⟨t', heq, h⟩
    rw [htrim] at heq
    rwa [map_unit_injective ht (ascii_of_solid (hQ h)) heq]
  · exact fun h => ⟨t, htrim, h⟩

theorem misread_iff (htrim : trim s = t.map unit) (ht : Ascii t) :
    Misspelled s ∨ SignedRadix s ∨ TwiceRounded s ↔
      MisspelledText t ∨ SignedRadixText t ∨ TwiceRoundedText t := by
  rw [misspelled_iff, signedRadix_iff, twiceRounded_iff,
    exists_text_iff htrim ht MisspelledText.solid, exists_text_iff htrim ht SignedRadixText.solid,
    exists_text_iff htrim ht TwiceRoundedText.solid]

/-! ## §10 The condition -/

theorem signed_literal_iff {sign : Char} (hsign : SignOf sign negative) (t : List Char) (neg : Bool)
    (m : Magnitude) :
    StrNumericLiteral (sign :: t) neg m ↔ neg = negative ∧ StrUnsignedDecimalLiteral t m := by
  constructor
  · intro h
    generalize hfull : sign :: t = full at h
    cases h with
    | unsigned h =>
      obtain ⟨c, rest, heq, hplus, hminus⟩ := h.head
      rw [heq] at hfull
      obtain ⟨rfl, -⟩ := List.cons.inj hfull
      cases hsign
      · exact absurd rfl hplus
      · exact absurd rfl hminus
    | plus h =>
      obtain ⟨rfl, rfl⟩ := List.cons.inj hfull
      cases hsign
      exact ⟨rfl, h⟩
    | minus h =>
      obtain ⟨rfl, rfl⟩ := List.cons.inj hfull
      cases hsign
      exact ⟨rfl, h⟩
    | radix h =>
      obtain ⟨hletter, hds⟩ := h
      obtain ⟨rfl, -⟩ := List.cons.inj hfull
      cases hsign
  · rintro ⟨rfl, h⟩
    cases hsign
    · exact .plus h
    · exact .minus h

theorem unsigned_literal_iff (hsign : ∀ c rest, t = c :: rest → c ≠ '+' ∧ c ≠ '-') (neg : Bool)
    (m : Magnitude) :
    StrNumericLiteral t neg m ↔ neg = false ∧ (StrUnsignedDecimalLiteral t m ∨
      ∃ radix ds, NonDecimalIntegerLiteral t radix ds ∧ m = .decimal (digitsValue radix ds) 0) := by
  constructor
  · intro h
    cases h with
    | unsigned h => exact ⟨rfl, .inl h⟩
    | plus h => exact absurd rfl (hsign _ _ rfl).1
    | minus h => exact absurd rfl (hsign _ _ rfl).2
    | radix h => exact ⟨rfl, .inr ⟨_, _, h, rfl⟩⟩
  · rintro ⟨rfl, h | ⟨radix, ds, h, rfl⟩⟩
    · exact .unsigned h
    · exact .radix h

theorem StrNumericLiteral.ne_sign {neg : Bool} (h : StrNumericLiteral t neg m) :
    t ≠ [] ∧ t ≠ ['+'] ∧ t ≠ ['-'] := by
  have hunsigned : ∀ {w : List Char} {m}, StrUnsignedDecimalLiteral w m → w ≠ [] := by
    intro w m hw
    obtain ⟨c, rest, rfl, -⟩ := hw.head
    exact List.cons_ne_nil c rest
  cases h with
  | unsigned h =>
    obtain ⟨c, rest, rfl, hplus, hminus⟩ := h.head
    exact ⟨List.cons_ne_nil c rest, fun heq => hplus (List.cons.inj heq).1,
      fun heq => hminus (List.cons.inj heq).1⟩
  | plus h =>
    refine ⟨List.cons_ne_nil _ _, fun heq => hunsigned h (List.cons.inj heq).2, fun heq => ?_⟩
    cases (List.cons.inj heq).1
  | minus h =>
    refine ⟨List.cons_ne_nil _ _, fun heq => ?_, fun heq => hunsigned h (List.cons.inj heq).2⟩
    cases (List.cons.inj heq).1
  | radix h =>
    obtain ⟨hletter, hds⟩ := h
    refine ⟨List.cons_ne_nil _ _, fun heq => ?_, fun heq => ?_⟩ <;> cases (List.cons.inj heq).1

theorem literal_text_iff (htrim : trim s = t.map unit) (ht : Ascii t) (hne : t ≠ [])
    (v : BitVec 64) :
    StringNumericLiteral isWs s v ↔
      ∃ neg m, StrNumericLiteral t neg m ∧ v = m.number neg := by
  rw [literal_iff, htrim]
  constructor
  · rintro (⟨hnil, -⟩ | ⟨t', neg, m, heq, h, hv⟩)
    · exact absurd (List.map_eq_nil_iff.mp hnil) hne
    · rw [map_unit_injective ht (ascii_of_solid h.solid) heq]
      exact ⟨neg, m, h, hv⟩
  · rintro ⟨neg, m, h, hv⟩
    exact .inr ⟨t, neg, m, rfl, h, hv⟩

section Text

variable {s : List (BitVec 16)} {t : List Char}

theorem readsLiteral_signed {sign : Char} {negative : Bool} (hsign : SignOf sign negative)
    (htrim : trim s = (sign :: t).map unit) (ht : Ascii (sign :: t))
    (hv : stringToNumber s = readWord negative t) :
    ReadsLiteral s ↔ ¬ (MisspelledWord t ∨ ∃ radix ds, NonDecimalIntegerLiteral t radix ds) := by
  have hliteral : ∀ v, StringNumericLiteral isWs s v ↔
      ∃ m, StrUnsignedDecimalLiteral t m ∧ v = m.number negative := by
    intro v
    rw [literal_text_iff htrim ht (List.cons_ne_nil sign t)]
    constructor
    · rintro ⟨neg, m, h, hv'⟩
      obtain ⟨rfl, hm⟩ := (signed_literal_iff hsign t neg m).mp h
      exact ⟨m, hm, hv'⟩
    · rintro ⟨m, hm, hv'⟩
      exact ⟨negative, m, (signed_literal_iff hsign t negative m).mpr ⟨rfl, hm⟩, hv'⟩
  unfold ReadsLiteral
  simp only [hliteral, hv]
  constructor
  · rintro ⟨-, hnone⟩ (hword | ⟨radix, ds, hradix⟩)
    · have hnan := hnone fun ⟨v, m, hm, _⟩ => not_unsigned_of_misspelled hword m hm
      rw [readWord_infinity negative hword.1] at hnan
      exact (infinity_spec negative).2.2.1 hnan
    · have hnan := hnone fun ⟨v, m, hm, _⟩ => not_unsigned_of_radix hradix m hm
      rw [readWord_radix negative hradix] at hnan
      exact not_isNaN_ofUnits negative (isFloat_radix hradix).mul_unitsPerOne hnan
  · intro hgood
    obtain ⟨hword, hradix⟩ := not_or.mp hgood
    refine ⟨?_, fun hnone => ?_⟩
    · rintro v ⟨m, hm, hv'⟩
      rw [hv', readWord_unsigned negative hm]
    · refine isNaN_readWord negative (fun hlower => ?_) (fun radix ds h => hradix ⟨radix, ds, h⟩) ?_
      · by_cases hspelled : t = "Infinity".toList
        · exact hnone ⟨_, .infinite, hspelled ▸ .infinity, rfl⟩
        · exact hword ⟨hlower, hspelled⟩
      · by_contra hvalid
        obtain ⟨n, e, h⟩ := exists_literal (eq_true_of_ne_false hvalid)
        exact hnone ⟨_, _, h, rfl⟩

theorem readsLiteral_word (hsign : ∀ c rest, t = c :: rest → c ≠ '+' ∧ c ≠ '-')
    (htrim : trim s = t.map unit) (ht : Ascii t) (hne : t ≠ [])
    (hv : stringToNumber s = readWord false t) :
    ReadsLiteral s ↔ ¬ (MisspelledWord t ∨
      ∃ radix ds, NonDecimalIntegerLiteral t radix ds ∧ Misrounded radix ds) := by
  have hliteral : ∀ v, StringNumericLiteral isWs s v ↔
      (∃ m, StrUnsignedDecimalLiteral t m ∧ v = m.number false) ∨
      ∃ radix ds, NonDecimalIntegerLiteral t radix ds ∧
        v = scaled false (digitsValue radix ds) 0 := by
    intro v
    rw [literal_text_iff htrim ht hne]
    constructor
    · rintro ⟨neg, m, h, hv'⟩
      obtain ⟨rfl, hm | ⟨radix, ds, hradix, rfl⟩⟩ := (unsigned_literal_iff hsign neg m).mp h
      · exact .inl ⟨m, hm, hv'⟩
      · exact .inr ⟨radix, ds, hradix, hv'⟩
    · rintro (⟨m, h, hv'⟩ | ⟨radix, ds, h, hv'⟩)
      · exact ⟨false, m, (unsigned_literal_iff hsign false m).mpr ⟨rfl, .inl h⟩, hv'⟩
      · exact ⟨false, _, (unsigned_literal_iff hsign false _).mpr
          ⟨rfl, .inr ⟨radix, ds, h, rfl⟩⟩, hv'⟩
  unfold ReadsLiteral
  simp only [hliteral, hv]
  constructor
  · rintro ⟨hread, hnone⟩ (hword | ⟨radix, ds, hradix, hround⟩)
    · have hnan := hnone (by
        rintro ⟨v, ⟨m, hm, -⟩ | ⟨radix, ds, hradix, -⟩⟩
        · exact not_unsigned_of_misspelled hword m hm
        · obtain ⟨hletter, hds⟩ := hradix
          cases hword.1)
      rw [readWord_infinity false hword.1] at hnan
      exact (infinity_spec false).2.2.1 hnan
    · exact (readWord_radix_iff hradix).mp (hread _ (.inr ⟨radix, ds, hradix, rfl⟩)) hround
  · intro hgood
    obtain ⟨hword, hround⟩ := not_or.mp hgood
    refine ⟨?_, fun hnone => ?_⟩
    · rintro v (⟨m, hm, hv'⟩ | ⟨radix, ds, hradix, hv'⟩)
      · rw [hv', readWord_unsigned false hm]
      · rw [hv']
        exact (readWord_radix_iff hradix).mpr fun h => hround ⟨radix, ds, hradix, h⟩
    · refine isNaN_readWord false (fun hlower => ?_)
        (fun radix ds h => hnone ⟨_, .inr ⟨radix, ds, h, rfl⟩⟩) ?_
      · by_cases hspelled : t = "Infinity".toList
        · exact hnone ⟨_, .inl ⟨.infinite, hspelled ▸ .infinity, rfl⟩⟩
        · exact hword ⟨hlower, hspelled⟩
      · by_contra hvalid
        obtain ⟨n, e, h⟩ := exists_literal (eq_true_of_ne_false hvalid)
        exact hnone ⟨_, .inl ⟨_, h, rfl⟩⟩

end Text

theorem not_misread_of_short (h : t = [] ∨ t = ['+'] ∨ t = ['-']) :
    ¬ (MisspelledText t ∨ SignedRadixText t ∨ TwiceRoundedText t) := by
  have hword : ∀ {w}, MisspelledWord w → w ≠ [] ∧ w ≠ ['+'] ∧ w ≠ ['-'] := by
    intro w hw
    refine ⟨?_, ?_, ?_⟩ <;> rintro rfl <;> exact absurd hw.1 (by decide)
  have hradix : ∀ {w radix ds}, NonDecimalIntegerLiteral w radix ds →
      w ≠ [] ∧ w ≠ ['+'] ∧ w ≠ ['-'] := fun hw => (StrNumericLiteral.radix hw).ne_sign
  rintro (⟨word, hmaybe, hmis⟩ | ⟨sign, negative, w, radix, ds, hsign, rfl, hw⟩ |
    ⟨radix, ds, hw, -⟩)
  · obtain ⟨hne, hplus, hminus⟩ := hword hmis
    rcases hmaybe with rfl | rfl | rfl
    · rcases h with rfl | rfl | rfl
      · exact hne rfl
      · exact hplus rfl
      · exact hminus rfl
    · rcases h with h | h | h <;> cases h
      exact hne rfl
    · rcases h with h | h | h <;> cases h
      exact hne rfl
  · obtain ⟨hne, -⟩ := hradix hw
    rcases h with h | h | h <;> cases h <;> exact hne rfl
  · obtain ⟨hne, hplus, hminus⟩ := hradix hw
    rcases h with rfl | rfl | rfl
    · exact hne rfl
    · exact hplus rfl
    · exact hminus rfl

/-- **A string is read as the grammar says exactly if** it is no misspelled infinity, no literal
with a sign and a radix, and no literal with a radix that is rounded twice. -/
theorem readsLiteral_iff (s : List (BitVec 16)) :
    ReadsLiteral s ↔ ¬ (Misspelled s ∨ SignedRadix s ∨ TwiceRounded s) := by
  cases reading s with
  | blank htrim hv =>
    rw [misread_iff (t := []) htrim (fun c hc => by cases hc)]
    refine iff_of_true ⟨fun v h => ?_, fun hnone => ?_⟩ (not_misread_of_short (.inl rfl))
    · rcases (literal_iff s v).mp h with ⟨-, hv'⟩ | ⟨t, neg, m, heq, h, -⟩
      · rw [hv, hv']
      · rw [htrim] at heq
        exact absurd (List.map_eq_nil_iff.mp heq.symm) h.ne_sign.1
    · exact absurd ⟨ofNat 0, (literal_iff s _).mpr (.inl ⟨htrim, rfl⟩)⟩ hnone
  | other hshort hne hv =>
    have hliteral : ¬ ∃ v, StringNumericLiteral isWs s v := by
      rintro ⟨v, h⟩
      rcases (literal_iff s v).mp h with ⟨hnil, -⟩ | ⟨t, neg, m, heq, h, -⟩
      · exact hne hnil
      · rcases hshort t (ascii_of_solid h.solid) heq with rfl | rfl
        · exact h.ne_sign.2.1 rfl
        · exact h.ne_sign.2.2 rfl
    refine iff_of_true ⟨fun v h => absurd ⟨v, h⟩ hliteral, fun _ => hv⟩ ?_
    rw [misspelled_iff, signedRadix_iff, twiceRounded_iff]
    rintro (⟨t, heq, h⟩ | ⟨t, heq, h⟩ | ⟨t, heq, h⟩)
    · exact not_misread_of_short (.inr (hshort t (ascii_of_solid h.solid) heq)) (.inl h)
    · exact not_misread_of_short (.inr (hshort t (ascii_of_solid h.solid) heq)) (.inr (.inl h))
    · exact not_misread_of_short (.inr (hshort t (ascii_of_solid h.solid) heq)) (.inr (.inr h))
  | signed sign negative t hsign htrim ht hv =>
    rw [misread_iff htrim ht, readsLiteral_signed hsign htrim ht hv]
    refine not_congr ⟨?_, ?_⟩
    · rintro (hword | ⟨radix, ds, h⟩)
      · refine .inl ⟨t, ?_, hword⟩
        cases hsign
        · exact .inr (.inl rfl)
        · exact .inr (.inr rfl)
      · exact .inr (.inl ⟨sign, negative, t, radix, ds, hsign, rfl, h⟩)
    · rintro (⟨word, hmaybe, hword⟩ | ⟨sign', negative', w, radix, ds, hsign', heq, h⟩ |
        ⟨radix, ds, h, -⟩)
      · rcases hmaybe with rfl | heq | heq
        · -- the lower case of a sign is no letter
          have hlower := hword.1
          cases hsign <;> cases hlower
        · cases (List.cons.inj heq).2
          exact .inl hword
        · cases (List.cons.inj heq).2
          exact .inl hword
      · cases (List.cons.inj heq).2
        exact .inr ⟨radix, ds, h⟩
      · cases h
        cases hsign
  | word t hnil htrim ht hsign hv =>
    rw [misread_iff htrim ht, readsLiteral_word hsign htrim ht hnil hv]
    refine not_congr ⟨?_, ?_⟩
    · rintro (hword | h)
      · exact .inl ⟨t, .inl rfl, hword⟩
      · exact .inr (.inr h)
    · rintro (⟨word, hmaybe, hword⟩ | ⟨sign, negative, w, radix, ds, hsign', rfl, h⟩ | h)
      · rcases hmaybe with rfl | rfl | rfl
        · exact .inl hword
        · exact absurd rfl (hsign _ _ rfl).1
        · exact absurd rfl (hsign _ _ rfl).2
      · cases hsign'
        · exact absurd rfl (hsign _ _ rfl).1
        · exact absurd rfl (hsign _ _ rfl).2
      · exact .inr h

/-- The digits of 2⁵⁷ + 17, of which the nearest double is 2⁵⁷ + 32; the first 14 are rounded
down. -/
def twiceRoundedDigits : List Char :=
  ['2', '0', '0', '0', '0', '0', '0', '0', '0', '0', '0', '0', '0', '1', '1']

theorem stringToNumber_twiceRounded :
    stringToNumber (('0' :: 'x' :: twiceRoundedDigits).map unit) ≠
      scaled false (digitsValue 16 twiceRoundedDigits) 0 := by
  decide +kernel

theorem not_readsLiteral : ¬ ∀ s, ReadsLiteral s := by
  intro h
  have hdigits : Digits 16 twiceRoundedDigits :=
    ⟨List.cons_ne_nil _ _, fun c hc => List.all_eq_true.mp (by decide) c hc⟩
  have hliteral : StringNumericLiteral isWs (('0' :: 'x' :: twiceRoundedDigits).map unit)
      (Magnitude.number false (.decimal (digitsValue 16 twiceRoundedDigits) 0)) :=
    .literal ((surrounded_iff (StrNumericLiteral.radix ⟨.hex, hdigits⟩).solid).mpr (by decide))
      (.radix ⟨.hex, hdigits⟩)
  exact stringToNumber_twiceRounded ((h _).1 _ hliteral)

end V12.Interp
