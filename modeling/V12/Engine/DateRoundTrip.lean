/-
V12.Engine.DateRoundTrip — `parse_date` reads back what the printers print.

A number printed to a width is a `Field` of as many digits, and each part of the
ES format reads its field off the front and leaves the rest (`Reads`). The other
two texts are words, each read as what was printed.
-/
import V12.Engine.DateFormat
import V12.Engine.DateSafety
import V12.Interp.StringNumberTheorems

namespace V12.DateTime

open Lib.Binary64 Lib.Binary64.Double Lib.Utf8 V12.Interp

/-! ## §1 Fields of digits -/

/-- A number in so many decimal digits. -/
structure Field (ds : List Char) (k n : Nat) : Prop where
  length : ds.length = k
  digits : ∀ c ∈ ds, c.isDigit = true
  value : digitsValue 10 ds = n

section Field

variable {ds : List Char} {k n : Nat}

/-- Digits by their code points, as the byte scanners know them. -/
theorem isDigit_iff (c : Char) : c.isDigit = true ↔ 48 ≤ c.toNat ∧ c.toNat ≤ 57 := by
  simp only [Char.isDigit, Bool.and_eq_true, decide_eq_true_eq]
  rfl

theorem toDigit_of_isDigit {c : Char} (h : c.isDigit = true) :
    toDigit 10 c = some (c.toNat - 48) := by
  have h' := (isDigit_iff c).mp h
  unfold toDigit
  rw [if_pos (show '0' ≤ c ∧ c ≤ '9' from h'), Option.filter_some, if_pos]
  exact decide_eq_true (by omega)

theorem isDigit_ten {c : Char} (h : c.isDigit = true) : isDigit 10 c = true := by
  rw [Interp.isDigit, toDigit_of_isDigit h]
  rfl

theorem digitsValue_eq (h : ∀ c ∈ ds, c.isDigit = true) :
    digitsValue 10 ds = Nat.ofDigitChars 10 ds 0 := by
  unfold digitsValue
  rw [Nat.ofDigitChars_eq_foldl]
  generalize 0 = init
  induction ds generalizing init with
  | nil => rfl
  | cons c ds ih =>
    rw [List.foldl_cons, List.foldl_cons, ih (fun a ha => h a (List.mem_cons_of_mem c ha)), digitValue,
      toDigit_of_isDigit (h c List.mem_cons_self), Nat.mul_comm]
    rfl

/-- Zeros in front change neither that there are digits only nor what they denote. -/
theorem padded_digits (k n : Nat) :
    (∀ c ∈ List.replicate k '0' ++ Nat.toDigits 10 n, c.isDigit = true) ∧
      digitsValue 10 (List.replicate k '0' ++ Nat.toDigits 10 n) = n := by
  have hall : ∀ c ∈ List.replicate k '0' ++ Nat.toDigits 10 n, c.isDigit = true := by
    intro c hc
    rcases List.mem_append.mp hc with hc | hc
    · rw [List.eq_of_mem_replicate hc]
      rfl
    · exact Nat.isDigit_of_mem_toDigits (by decide) (by decide) hc
  refine ⟨hall, ?_⟩
  rw [digitsValue_eq hall, Nat.ofDigitChars_append, Nat.ofDigitChars_replicate_zero, Nat.mul_zero,
    Nat.ofDigitChars_toDigits (by decide) (by decide)]

theorem zeroPad_natCast (k n : Nat) : zeroPad k n =
    List.replicate (k - (Nat.toDigits 10 n).length) '0' ++ Nat.toDigits 10 n := by
  unfold zeroPad
  rw [if_neg (by omega), Int.natAbs_natCast]

/-- What `zero_pad` prints of a number that fits is a field of its width. -/
theorem field_zeroPad (hk : 0 < k) (h : n < 10 ^ k) : Field (zeroPad k n) k n := by
  obtain ⟨hall, hvalue⟩ := padded_digits (k - (Nat.toDigits 10 n).length) n
  have hlength := (Nat.length_toDigits_le_iff (b := 10) (by decide) hk).mpr h
  rw [zeroPad_natCast]
  refine ⟨?_, hall, hvalue⟩
  rw [List.length_append, List.length_replicate]
  omega

theorem Field.ne_nil (h : Field ds k n) (hk : 0 < k) : ds ≠ [] := by
  rintro rfl
  exact absurd h.length (by simp; omega)

theorem Field.ascii (h : Field ds k n) : ∀ c ∈ ds, c.toNat < 128 := fun c hc => by
  have := (isDigit_iff c).mp (h.digits c hc)
  omega

theorem sign_ne {c : Char} (h : c.isDigit = true) : c ≠ '-' ∧ c ≠ '+' := by
  constructor
  · rintro rfl
    cases h
  · rintro rfl
    cases h

theorem takeSign_digits (hall : ∀ c ∈ ds, c.isDigit = true) : takeSign ds = (false, ds) := by
  unfold takeSign
  split
  · exact absurd rfl (sign_ne (hall _ List.mem_cons_self)).1
  · exact absurd rfl (sign_ne (hall _ List.mem_cons_self)).2
  · rfl

theorem all_isDigit (hall : ∀ c ∈ ds, c.isDigit = true) : ds.all (Interp.isDigit 10) = true :=
  List.all_eq_true.mpr fun a ha => isDigit_ten (hall a ha)

/-- A run of digits is read as the number it denotes, and negated behind a minus. -/
theorem parseInteger_digits (hne : ds ≠ []) (hall : ∀ c ∈ ds, c.isDigit = true) :
    parseInteger ds = some (digitsValue 10 ds : ℤ) := by
  unfold parseInteger
  rw [takeSign_digits hall]
  simp [hne, all_isDigit hall]

theorem parseInteger_minus (hne : ds ≠ []) (hall : ∀ c ∈ ds, c.isDigit = true) :
    parseInteger ('-' :: ds) = some (-(digitsValue 10 ds : ℤ)) := by
  unfold parseInteger
  rw [show takeSign ('-' :: ds) = (true, ds) from rfl]
  simp [hne, all_isDigit hall]

theorem parseU32_field (h : Field ds k n) (hk : 0 < k) (hn : n < 2 ^ 32) : parseU32 ds = some n := by
  obtain ⟨c, cs, rfl⟩ := List.exists_cons_of_ne_nil (h.ne_nil hk)
  have hsign := (sign_ne (h.digits c List.mem_cons_self)).1
  unfold parseU32
  rw [List.head?_cons, if_neg (by simpa using hsign), parseInteger_digits (h.ne_nil hk) h.digits,
    h.value, Option.filter_some, if_pos (decide_eq_true ⟨by omega, by omega⟩)]
  rfl

theorem parseI64_field (h : Field ds k n) (hk : 0 < k) (hn : n < 2 ^ 63) :
    parseI64 ds = some (n : ℤ) := by
  unfold parseI64
  rw [parseInteger_digits (h.ne_nil hk) h.digits, h.value, Option.filter_some,
    if_pos (decide_eq_true ⟨by omega, by omega⟩)]

theorem parseI64_minus (h : Field ds k n) (hk : 0 < k) (hn : n < 2 ^ 63) :
    parseI64 ('-' :: ds) = some (-(n : ℤ)) := by
  unfold parseI64
  rw [parseInteger_minus (h.ne_nil hk) h.digits, h.value, Option.filter_some,
    if_pos (decide_eq_true ⟨by omega, by omega⟩)]

theorem validDecimal_digits (hne : ds ≠ []) (hall : ∀ c ∈ ds, Interp.isDigit 10 c = true) :
    validDecimal ds = true ∧ parseF64 ds = ofUnits false (roundUnits (digitsValue 10 ds * unitsPerOne) 1) := by
  obtain ⟨htake, hdrop⟩ := takeWhile_all hall
  have hlength : ds.length ≠ 0 := fun h => hne (List.length_eq_zero_iff.mp h)
  constructor
  · simp only [validDecimal, htake, hdrop, fractionPart, List.length_nil, Nat.add_zero, hlength,
      if_false, validExponent]
  · simp only [parseF64, htake, hdrop, fractionPart, exponentOf, List.append_nil, List.length_nil]
    unfold scaled nearest
    simp

theorem map_toLower_digits (hall : ∀ c ∈ ds, c.isDigit = true) : ds.map Char.toLower = ds := by
  have hlower : ∀ c ∈ ds, c.toLower = id c := by
    intro c hc
    have hdigit := (isDigit_iff c).mp (hall c hc)
    refine char_ext ?_
    rw [toNat_toLower, if_neg (by omega), id]
  rw [List.map_congr_left hlower, List.map_id]

/-- A field is read exactly as a double while it is below 2⁵³. -/
theorem parseFloat_field (h : Field ds k n) (hk : 0 < k) (hn : n < 2 ^ 53) :
    parseFloat ds = some (ofInt n) := by
  obtain ⟨c, cs, rfl⟩ := List.exists_cons_of_ne_nil (h.ne_nil hk)
  have hdigit := h.digits c List.mem_cons_self
  have hten : ∀ a ∈ c :: cs, Interp.isDigit 10 a = true := fun a ha => isDigit_ten (h.digits a ha)
  obtain ⟨hvalid, hparse⟩ := validDecimal_digits (List.cons_ne_nil c cs) hten
  obtain ⟨hneg, hfinite, hunits⟩ := ofNat_small hn
  have hround : ofUnits false (roundUnits (n * unitsPerOne) 1) = ofNat n := by
    have hmul := roundUnits_mul (isFloat_of_lt hn).mul_unitsPerOne Nat.one_pos
    rw [Nat.mul_one] at hmul
    rw [hmul, ofNat]
  rw [h.value, hround] at hparse
  have hword : ∀ w : List Char, w.head?.any Char.isDigit = false → c :: cs ≠ w := by
    rintro w hw rfl
    exact absurd (hdigit.symm.trans hw) (by decide)
  unfold parseFloat
  rw [takeSign_digits h.digits]
  simp only [map_toLower_digits h.digits, hword "inf".toList (by decide),
    hword "infinity".toList (by decide), hword "nan".toList (by decide), hvalid, hparse, hfinite,
    or_self, if_false, if_true, Bool.false_eq_true, value_of_units hunits, hneg]
  rfl

end Field

/-! ## §2 Reading the ES format -/

section Reading

variable {s rest ds : List Char} {i k n : Nat}
variable {ms : Nat} {hh mm ss mss : List Char} {c : Clock}

theorem isByte_of_reads {c d : Char} (h : Reads s i (d :: rest)) (hd : d.toNat < 128) :
    isByte s i c = decide (d = c) := by
  have hget := h.getElem? 0
  rw [Nat.add_zero, bytes_cons_ascii hd, List.getElem?_cons_zero] at hget
  unfold isByte byteAt
  rw [hget, decide_eq_decide, Option.some_inj]
  exact ⟨char_ext, fun heq => by rw [heq]⟩

/-- The scanner takes exactly the field off the text, and what is behind it is left to read. -/
theorem Field.slice (hf : Field ds k n) (h : Reads s i (ds ++ rest)) :
    areDigits s i (i + k) = true ∧ slice s i (i + k) = some ds ∧ Reads s (i + k) rest := by
  have hlength := h.length
  have hbytes := bytes_ascii hf.ascii
  have hk : (bytes ds).length = k := by rw [hbytes, List.length_map, hf.length]
  obtain ⟨p, rfl, rfl, -⟩ := h.split
  have hsub : ((bytes (p ++ (ds ++ rest))).take ((bytes p).length + k)).drop (bytes p).length =
      ds.map Char.toNat := by
    rw [bytes_append, bytes_append, ← hk, List.take_length_add_append, List.drop_left,
      List.take_left, hbytes]
  have hdigits : (ds.map Char.toNat).all asciiDigit = true := by
    rw [List.all_map, List.all_eq_true]
    exact fun c hc => decide_eq_true ((isDigit_iff c).mp (hf.digits c hc))
  refine ⟨?_, ?_, ?_⟩
  · unfold areDigits
    rw [hsub, hdigits, Bool.and_true, decide_eq_true_eq, hlength, bytes_append, List.length_append]
    omega
  · rw [← hk]
    exact slice_append p ds rest
  · rw [← hf.length]
    exact h.append hf.ascii

theorem parseFixed_field (hf : Field ds k n) (hk : 0 < k) (hn : n < 2 ^ 32)
    (h : Reads s i (ds ++ rest)) : parseFixed s i k = .some n ∧ Reads s (i + k) rest := by
  obtain ⟨hdigits, hslice, hnext⟩ := hf.slice h
  refine ⟨?_, hnext⟩
  unfold parseFixed
  rw [hdigits, hslice, show Outcome.guard true = .some () from rfl, Outcome.some_bind, Outcome.ofSlice,
    Outcome.some_bind, parseU32_field hf hk hn, Outcome.ofOption]

theorem isByte_digit {c : Char} (hf : Field ds k n) (hk : 0 < k) (h : Reads s i (ds ++ rest))
    (hc : c.isDigit = false) : isByte s i c = false := by
  obtain ⟨d, ds', rfl⟩ := List.exists_cons_of_ne_nil (hf.ne_nil hk)
  rw [isByte_of_reads h (hf.ascii d List.mem_cons_self), decide_eq_false_iff_not]
  rintro rfl
  rw [hf.digits d List.mem_cons_self] at hc
  cases hc

/-- The year that `format_year_extended` printed is read back, in four digits or six. -/
theorem isoYear_text {y : ℤ} (hy : y.natAbs < 1000000)
    (hs : s = formatYearExtended (ofInt y) ++ rest) :
    ∃ i, isoYear s = .some (y, i) ∧ Reads s i rest := by
  have hstart := reads_start s
  have htoI64 := toI64_ofInt (n := y) (by omega)
  unfold formatYearExtended at hs
  simp only [htoI64] at hs
  unfold isoYear
  split at hs
  · next hfour =>
    obtain ⟨n, rfl⟩ := Int.eq_ofNat_of_zero_le hfour.1
    have hfield := field_zeroPad (k := 4) (n := n) (by decide) (by omega)
    nth_rewrite 2 [hs] at hstart
    obtain ⟨hdigits, hslice, hnext⟩ := hfield.slice hstart
    refine ⟨4, ?_, hnext⟩
    simp only [Nat.zero_add] at hdigits hslice
    simp only [isByte_digit hfield (by decide) hstart (show '+'.isDigit = false from rfl),
      isByte_digit hfield (by decide) hstart (show '-'.isDigit = false from rfl), hdigits, hslice,
      parseI64_field hfield (by decide) (show n < 2 ^ 63 by omega), Outcome.ofSlice, Outcome.ofOption,
      Outcome.guard, Outcome.some_bind, Bool.or_self, if_false, if_true, Bool.false_eq_true]
    rfl
  · next hfour =>
    split at hs
    · next hlarge =>
      obtain ⟨n, rfl⟩ := Int.eq_ofNat_of_zero_le (show 0 ≤ y by omega)
      have hfield := field_zeroPad (k := 6) (n := n) (by decide) (by omega)
      nth_rewrite 2 [hs] at hstart
      obtain ⟨hdigits, hslice, hnext⟩ := hfield.slice (hstart.cons (by decide))
      refine ⟨7, ?_, hnext⟩
      simp only [Nat.zero_add, Nat.reduceAdd] at hdigits hslice
      simp only [isByte_of_reads hstart (show '+'.toNat < 128 by decide), hdigits, hslice,
        parseI64_field hfield (by decide) (show n < 2 ^ 63 by omega), Outcome.ofSlice,
        Outcome.ofOption, Outcome.guard, Outcome.some_bind]
      rfl
    · next hneg =>
      obtain ⟨n, hn⟩ := Int.eq_ofNat_of_zero_le (show 0 ≤ -y by omega)
      have hfield := field_zeroPad (k := 6) (n := n) (by decide) (by omega)
      rw [hn] at hs
      nth_rewrite 2 [hs] at hstart
      obtain ⟨hdigits, hslice, hnext⟩ := hfield.slice (hstart.cons (by decide))
      refine ⟨7, ?_, hnext⟩
      have hzero : ((n : ℤ) = 0) = False := eq_false (by omega)
      simp only [Nat.zero_add, Nat.reduceAdd] at hdigits hslice
      simp only [isByte_of_reads hstart (show '-'.toNat < 128 by decide), hdigits, hslice,
        parseI64_field hfield (by decide) (show n < 2 ^ 63 by omega), Outcome.ofSlice,
        Outcome.ofOption, Outcome.guard, Outcome.some_bind, hzero]
      rw [show y = -(n : ℤ) by omega]
      rfl

/-- Month and day are read back from their two fields. -/
theorem isoDate_text {ds' : List Char} {m d : Nat} (hm : 1 ≤ m ∧ m ≤ 12) (hd : 1 ≤ d ∧ d ≤ 31)
    (hfm : Field ds 2 m) (hfd : Field ds' 2 d) (h : Reads s i ('-' :: (ds ++ '-' :: (ds' ++ rest)))) :
    isoDate s i = .some (m, d, i + 6) ∧ Reads s (i + 6) rest := by
  obtain ⟨hmonth, hnext⟩ := parseFixed_field hfm (by decide) (by omega) (h.cons (by decide))
  obtain ⟨hday, hrest⟩ := parseFixed_field hfd (by decide) (by omega) (hnext.cons (by decide))
  refine ⟨?_, hrest⟩
  have hdash := isByte_of_reads (c := '-') h (by decide)
  have hdash' := isByte_of_reads (c := '-') hnext (by decide)
  simp only [Nat.add_assoc, Nat.reduceAdd] at hdash' hday
  simp only [isoDate, isoDay, hdash, hmonth, hdash', hday, hm, hd, Outcome.guard, Outcome.some_bind,
    decide_true, Bool.and_self, if_true, Nat.add_assoc, Nat.reduceAdd]
  rfl

theorem digitRun_field (hf : Field ds k n) (h : Reads s i (ds ++ ['Z'])) : digitRun s i = k := by
  obtain ⟨p, rfl, rfl, -⟩ := h.split
  have hall : ∀ b ∈ bytes ds, asciiDigit b = true := by
    intro b hb
    rw [bytes_ascii hf.ascii] at hb
    obtain ⟨c, hc, rfl⟩ := List.mem_map.mp hb
    exact decide_eq_true ((isDigit_iff c).mp (hf.digits c hc))
  unfold digitRun
  rw [bytes_append, bytes_append, List.drop_left, List.takeWhile_append_of_pos hall,
    List.length_append, bytes_ascii hf.ascii, List.length_map, hf.length]
  rfl

/-- Three digits behind the point are the milliseconds. -/
theorem isoFraction_text (hf : Field ds 3 ms) (hms : ms < 1000)
    (h : Reads s i ('.' :: (ds ++ ['Z']))) :
    isoFraction s i = .some (ofInt ms, i + 4) ∧ Reads s (i + 4) ['Z'] := by
  have hdigits := h.cons (by decide)
  obtain ⟨-, hslice, hnext⟩ := hf.slice hdigits
  refine ⟨?_, hnext⟩
  have hpoint := isByte_of_reads (c := '.') h (by decide)
  have hrun := digitRun_field hf hdigits
  have hne := hf.ne_nil (by decide)
  have hfill : (ds ++ List.replicate (3 - ds.length) '0').take 3 = ds := by
    rw [hf.length, Nat.sub_self, List.replicate_zero, List.append_nil,
      List.take_of_length_le (Nat.le_of_eq hf.length)]
  simp only [isoFraction, hpoint, hrun, hslice, hne, hfill, Outcome.ofSlice, Outcome.ofOption,
    parseFloat_field hf (by decide) (show ms < 2 ^ 53 by omega), Outcome.guard, Outcome.some_bind,
    decide_true, if_true, ne_eq, not_false_eq_true, Nat.add_assoc, Nat.reduceAdd]
  rfl

/-- The texts of a time of day. -/
structure Written (c : Clock) (hh mm ss mss : List Char) (ms : Nat) : Prop where
  hour : Field hh 2 c.hour
  minute : Field mm 2 c.minute
  second : Field ss 2 c.second
  frac : Field mss 3 ms
  range : c.hour < 24 ∧ c.minute < 60 ∧ c.second < 60 ∧ c.ms = ofInt ms
  lt : ms < 1000

/-- The time of day is read back from its fields, up to the zone. -/
theorem isoTime_text (hc : Written c hh mm ss mss ms)
    (h : Reads s i ('T' :: (hh ++ ':' :: (mm ++ ':' :: (ss ++ '.' :: (mss ++ ['Z'])))))) :
    isoTime s i = .some (c, i + 13) ∧ Reads s (i + 13) ['Z'] := by
  obtain ⟨hour, minute, second, frac⟩ := c
  obtain ⟨hfh, hfm, hfs, hfms, ⟨hhour, hminute, hsecond, rfl⟩, hms⟩ := hc
  simp only at hhour hminute hsecond hfh hfm hfs
  obtain ⟨hparse, hnext⟩ := parseFixed_field hfh (by decide) (by omega) (h.cons (by decide))
  obtain ⟨hparse', hnext'⟩ := parseFixed_field hfm (by decide) (by omega) (hnext.cons (by decide))
  obtain ⟨hparse'', hnext''⟩ := parseFixed_field hfs (by decide) (by omega) (hnext'.cons (by decide))
  obtain ⟨hfraction, hend⟩ := isoFraction_text hfms hms hnext''
  refine ⟨?_, hend⟩
  have hletter := isByte_of_reads (c := 'T') h (by decide)
  have hcolon := isByte_of_reads (c := ':') hnext (by decide)
  have hcolon' := isByte_of_reads (c := ':') hnext' (by decide)
  simp only [Nat.add_assoc, Nat.reduceAdd] at hcolon hcolon' hparse' hparse'' hfraction
  simp only [isoTime, isoSecond, hletter, hparse, hcolon, hparse', hcolon', hparse'', hfraction,
    Nat.le_of_lt hhour, Nat.le_of_lt_succ hminute, Nat.le_of_lt_succ hsecond, Outcome.guard,
    Outcome.some_bind, decide_true, Bool.true_or, Bool.and_self, if_true, Nat.add_assoc,
    Nat.reduceAdd]
  rfl

/-- With the `Z`, what follows the date is read to the end, at offset 0. -/
theorem isoRest_text (hc : Written c hh mm ss mss ms)
    (h : Reads s i ('T' :: (hh ++ ':' :: (mm ++ ':' :: (ss ++ '.' :: (mss ++ ['Z'])))))) :
    isoRest s i = .some (c, 0) := by
  obtain ⟨htime, hend⟩ := isoTime_text hc h
  have hlength := h.length
  have hlength' := hend.length
  have hz : (bytes ['Z']).length = 1 := rfl
  rw [length_bytes_cons] at hlength
  have hpos := size_pos 'T'
  have hzone := isByte_of_reads (c := 'Z') hend (by decide)
  unfold isoRest
  rw [if_neg (by omega), htime, Outcome.some_bind]
  simp only [isoZone, hzone, decide_true, Bool.true_or, if_true]
  have hstop : i + 13 + 1 = (bytes s).length := by omega
  simp only [Bind.bind, Pure.pure, Outcome.bind, Outcome.guard, hstop, decide_true, if_true]

/-- **An ES text is read** as the date and the time that it shows. -/
theorem parseIso_text {y : ℤ} {m d : Nat} {mon dd : List Char} (hy : y.natAbs < 1000000)
    (hm : m < 12) (hd : 1 ≤ d ∧ d ≤ 31) (hfmon : Field mon 2 (m + 1)) (hfd : Field dd 2 d)
    (hc : Written c hh mm ss mss ms)
    (hs : s = formatYearExtended (ofInt y) ++ '-' :: (mon ++ '-' :: (dd ++ 'T' :: (hh ++
      ':' :: (mm ++ ':' :: (ss ++ '.' :: (mss ++ ['Z']))))))) :
    parseIso s = .some (timeClip ((makeDate (makeDay (ofInt y) (ofInt m) (ofInt d))
      (makeTime (ofInt c.hour) (ofInt c.minute) (ofInt c.second) c.ms)).sub (ofInt 0))) := by
  obtain ⟨i, hyear, hnext⟩ := isoYear_text hy hs
  obtain ⟨hdate, hrest⟩ := isoDate_text ⟨Nat.le_add_left 1 m, hm⟩ hd hfmon hfd hnext
  have hrest' := isoRest_text hc hrest
  have hnoon : (c.hour = 24) = False := eq_false (Nat.ne_of_lt hc.range.1)
  have hzero : ofRat (((0 : ℤ) : ℚ) * msPerMinute) = ofInt 0 := by
    rw [Int.cast_zero, zero_mul]
    exact_mod_cast ofRat_intCast (a := 0) (by decide)
  unfold parseIso
  rw [hyear, Outcome.some_bind]
  simp only [hdate, hrest', Outcome.some_bind, hnoon, decide_false, Bool.false_and, Bool.not_false,
    Outcome.guard, if_true, hzero, Nat.cast_add, Nat.cast_one, Int.add_sub_cancel]
  rfl

end Reading

/-! ## §3 Words -/

section Words

variable {w : List Char} {k n : Nat}
variable {words rest : List (List Char)} {m : Nat} {name : List Char}

/-- A word: something, with no white space in it. -/
structure Word (w : List Char) : Prop where
  ne_nil : w ≠ []
  solid : ∀ c ∈ w, isWhitespace c = false

theorem splitWhitespace_word (hw : Word w) : splitWhitespace w = [w] := by
  unfold splitWhitespace
  rw [List.splitOnP_eq_singleton hw.solid, List.filter_singleton, decide_eq_true hw.ne_nil, cond_true]

theorem splitWhitespace_cons (hw : Word w) (rest : List Char) :
    splitWhitespace (w ++ ' ' :: rest) = w :: splitWhitespace rest := by
  unfold splitWhitespace
  rw [List.splitOnP_append_cons_of_forall_mem hw.solid ' ' rfl, List.filter_cons_of_pos]
  exact decide_eq_true hw.ne_nil

theorem trimText_ends {s : List Char} (hfirst : ∀ c ∈ s.head?, isWhitespace c = false)
    (hlast : ∀ c ∈ s.getLast?, isWhitespace c = false) : trimText s = s := by
  have hhead : s.dropWhile isWhitespace = s := by
    cases s with
    | nil => rfl
    | cons c cs =>
      rw [List.dropWhile_cons_of_neg]
      rw [hfirst c rfl]
      exact Bool.false_ne_true
  have htail : s.rdropWhile isWhitespace = s := by
    refine List.rdropWhile_eq_self_iff.mpr fun hne => ?_
    rw [hlast _ (List.getLast?_eq_some_getLast hne)]
    exact Bool.false_ne_true
  rw [trimText, hhead, htail]

def spaced : List (List Char) → List Char
  | [] => []
  | [w] => w
  | w :: v :: words => w ++ ' ' :: spaced (v :: words)

theorem spaced_cons (w v : List Char) (words : List (List Char)) :
    spaced (w :: v :: words) = w ++ ' ' :: spaced (v :: words) := rfl

/-- Words set apart by single spaces are split into themselves. -/
theorem splitWhitespace_spaced (h : ∀ w ∈ words, Word w) :
    splitWhitespace (spaced words) = words := by
  induction words with
  | nil => rfl
  | cons w words ih =>
    have hw := h w List.mem_cons_self
    cases words with
    | nil => exact splitWhitespace_word hw
    | cons v words =>
      rw [spaced_cons, splitWhitespace_cons hw, ih fun a ha => h a (List.mem_cons_of_mem w ha)]

theorem spaced_ne_nil (hne : words ≠ []) (h : ∀ w ∈ words, Word w) :
    spaced words ≠ [] := by
  intro hempty
  have hsplit := splitWhitespace_spaced h
  rw [hempty] at hsplit
  exact hne hsplit.symm

theorem getLast_spaced (h : ∀ w ∈ words, Word w) :
    ∀ c ∈ (spaced words).getLast?, isWhitespace c = false := by
  induction words with
  | nil => exact fun c hc => by cases hc
  | cons w words ih =>
    have hrest : ∀ v ∈ words, Word v := fun v hv => h v (List.mem_cons_of_mem w hv)
    cases words with
    | nil => exact fun c hc => (h w List.mem_cons_self).solid c (List.mem_of_getLast? hc)
    | cons v words =>
      intro c hc
      refine ih hrest c ?_
      obtain ⟨a, as, has⟩ := List.exists_cons_of_ne_nil (spaced_ne_nil (List.cons_ne_nil v words) hrest)
      rw [spaced_cons, List.getLast?_append_of_ne_nil _ (List.cons_ne_nil _ _), has,
        List.getLast?_cons_cons] at hc
      rwa [has]

theorem head_spaced {w : List Char} (hw : Word w) :
    ∀ c ∈ (spaced (w :: words)).head?, c ∈ w.head? := by
  obtain ⟨a, as, rfl⟩ := List.exists_cons_of_ne_nil hw.ne_nil
  cases words <;> exact fun c hc => hc

def Printed (c : Char) : Prop := c.toNat = 45 ∨ 48 ≤ c.toNat ∧ c.toNat ≤ 58

instance (c : Char) : Decidable (Printed c) := inferInstanceAs (Decidable (_ ∨ _))

/-- Digits, colons and signs make words without white space or commas. -/
theorem word_of_printed (hne : w ≠ []) (h : ∀ c ∈ w, Printed c) : Word w := by
  refine ⟨hne, fun c hc => ?_⟩
  have hprinted := h c hc
  unfold Printed at hprinted
  simp only [isWhitespace, Bool.or_eq_false_iff, Bool.and_eq_false_iff, decide_eq_false_iff_not,
    beq_eq_false_iff_ne]
  omega

theorem trimCommas_printed (h : ∀ c ∈ w, Printed c) : trimCommas w = w := by
  refine List.rdropWhile_eq_self_iff.mpr fun hne => ?_
  have hprinted := h _ (List.getLast_mem hne)
  simp only [decide_eq_true_eq]
  intro hcomma
  rw [hcomma] at hprinted
  exact absurd hprinted (by decide)

theorem Field.printed {ds : List Char} (h : Field ds k n) : ∀ c ∈ ds, Printed c := fun c hc => by
  have := (isDigit_iff c).mp (h.digits c hc)
  exact .inr ⟨this.1, by omega⟩

theorem exists_field_zeroPad (width n : Nat) : ∃ k, 0 < k ∧ Field (zeroPad width n) k n := by
  obtain ⟨hall, hvalue⟩ := padded_digits (width - (Nat.toDigits 10 n).length) n
  rw [zeroPad_natCast]
  refine ⟨_, ?_, rfl, hall, hvalue⟩
  rw [List.length_append]
  exact Nat.add_pos_right _ Nat.length_toDigits_pos

/-- The plain year of the other two texts is read back, its sign included. -/
theorem parseI64_year {y : ℤ} (hy : y.natAbs < 1000000) :
    parseI64 (trimCommas (formatYearPlain (ofInt y))) = some y ∧ Word (formatYearPlain (ofInt y)) := by
  have htoI64 := toI64_ofInt (n := y) (by omega)
  unfold formatYearPlain
  simp only [htoI64]
  split
  · next hneg =>
    obtain ⟨n, hn⟩ := Int.eq_ofNat_of_zero_le (show 0 ≤ -y by omega)
    obtain ⟨k, hk, hfield⟩ := exists_field_zeroPad 4 n
    rw [hn]
    have hprinted : ∀ c ∈ '-' :: zeroPad 4 (n : ℤ), Printed c := by
      intro c hc
      rcases List.mem_cons.mp hc with rfl | hc
      · exact .inl rfl
      · exact hfield.printed c hc
    refine ⟨?_, word_of_printed (List.cons_ne_nil _ _) hprinted⟩
    rw [trimCommas_printed hprinted, parseI64_minus hfield hk (by omega)]
    congr 1
    omega
  · next hneg =>
    obtain ⟨n, rfl⟩ := Int.eq_ofNat_of_zero_le (show 0 ≤ y by omega)
    obtain ⟨k, hk, hfield⟩ := exists_field_zeroPad 4 n
    refine ⟨?_, word_of_printed (hfield.ne_nil hk) hfield.printed⟩
    rw [trimCommas_printed hfield.printed, parseI64_field hfield hk (by omega)]

/-- The clock is read back from its three fields. -/
theorem parseHms_fields {hh mm ss : List Char} {h s : Nat} (hfh : Field hh 2 h) (hfm : Field mm 2 m)
    (hfs : Field ss 2 s) (hsmall : h < 100 ∧ m < 100 ∧ s < 100) :
    parseHms (hh ++ ':' :: (mm ++ ':' :: ss)) = some (ofInt h, ofInt m, ofInt s) := by
  have hcolon {ds : List Char} {n : Nat} (hf : Field ds 2 n) : ':' ∉ ds := fun hmem => by
    cases hf.digits ':' hmem
  unfold parseHms
  rw [List.splitOn_append_cons_self_of_not_mem (hcolon hfh),
    List.splitOn_append_cons_self_of_not_mem (hcolon hfm), List.splitOn_eq_singleton (hcolon hfs)]
  simp only [parseFloat_field hfh (by decide) (show h < 2 ^ 53 by omega),
    parseFloat_field hfm (by decide) (show m < 2 ^ 53 by omega),
    parseFloat_field hfs (by decide) (show s < 2 ^ 53 by omega), Option.bind_eq_bind,
    Option.bind_some, Option.pure_def]

theorem word_clock {hh mm ss : List Char} {h s : Nat} (hfh : Field hh 2 h) (hfm : Field mm 2 m)
    (hfs : Field ss 2 s) : Word (hh ++ ':' :: (mm ++ ':' :: ss)) := by
  refine word_of_printed (List.append_ne_nil_of_left_ne_nil (hfh.ne_nil (by decide)) _) fun c hc => ?_
  simp only [List.mem_append, List.mem_cons] at hc
  rcases hc with hc | rfl | hc | rfl | hc
  · exact hfh.printed c hc
  · exact .inr (by decide)
  · exact hfm.printed c hc
  · exact .inr (by decide)
  · exact hfs.printed c hc

/-! ## §4 Names -/

instance (w : List Char) : Decidable (Word w) :=
  decidable_of_iff (w ≠ [] ∧ w.all (fun c => isWhitespace c == false) = true)
    ⟨fun h => ⟨h.1, by simpa using h.2⟩, fun h => ⟨h.1, by simpa using h.2⟩⟩

/-- The names of the days are taken for days, with a comma or without, and for nothing else. -/
theorem weekday_words : ∀ d ∈ WEEKDAYS, isWeekday d = .some true ∧
    isWeekday (d ++ [',']) = .some true ∧ Word d ∧ Word (d ++ [',']) ∧
      (∀ c ∈ d.head?, c.toNat < 128 ∧ c ≠ '+' ∧ c ≠ '-' ∧ asciiDigit c.toNat = false) := by
  have htests : ∀ d ∈ WEEKDAYS, isWeekday d = .some true ∧ isWeekday (d ++ [',']) = .some true ∧
      Word d ∧ Word (d ++ [',']) ∧ (d.head?.all fun c =>
        decide (c.toNat < 128 ∧ c ≠ '+' ∧ c ≠ '-' ∧ asciiDigit c.toNat = false)) = true := by
    decide
  intro d hd
  obtain ⟨hname, hcomma, hword, hword', hhead⟩ := htests d hd
  rw [Option.all_eq_true] at hhead
  exact ⟨hname, hcomma, hword, hword', fun c hc => of_decide_eq_true (hhead c hc)⟩

/-- The names of the months stand for their numbers. -/
theorem month_words : ∀ p ∈ MONTHS.zipIdx, monthIndex p.1 = .some (some p.2) ∧ Word p.1 := by
  decide

theorem monthName_spec (h : MONTHS[m]? = some name) :
    monthIndex name = .some (some m) ∧ Word name :=
  month_words (name, m) (List.mk_mem_zipIdx_iff_getElem?.mpr h)

/-- A text that starts with a letter is left to the fallback. -/
theorem parseIso_letter {c : Char} {cs : List Char} (hc : c.toNat < 128 ∧ c ≠ '+' ∧ c ≠ '-' ∧
    asciiDigit c.toNat = false) : parseIso (c :: cs) = .none := by
  obtain ⟨hascii, hplus, hminus, hdigit⟩ := hc
  have hbyte (d : Char) : isByte (c :: cs) 0 d = decide (c = d) :=
    isByte_of_reads (reads_start (c :: cs)) hascii
  have hdigits : areDigits (c :: cs) 0 4 = false := by
    unfold areDigits
    rw [bytes_cons_ascii hascii, List.take_succ_cons, List.drop_zero, List.all_cons, hdigit,
      Bool.false_and, Bool.and_false]
  have hyear : isoYear (c :: cs) = .none := by
    simp only [isoYear, hbyte, hplus, hminus, decide_false, Bool.or_self, Bool.false_eq_true,
      if_false, hdigits]
    rfl
  unfold parseIso
  rw [hyear]
  rfl

/-! ## §5 The fallback -/

/-- **The fallback** composes the date from its words, if each is read as it was printed. -/
theorem parseFallback_text {s wd year clock : List Char} {tokens : List (List Char)}
    {y d h mi sec : ℤ} (hsplit : splitWhitespace s = wd :: tokens)
    (hweekday : isWeekday wd = .some true)
    (hday : dayMonth tokens = .some (ofInt d, m, year :: clock :: rest))
    (hyear : parseI64 (trimCommas year) = some y) (hy : y.natAbs ≤ 2 ^ 53)
    (hclock : parseHms clock = some (ofInt h, ofInt mi, ofInt sec)) (hzone : zoneOffset rest = 0) :
    parseFallback s = .some (timeClip ((makeDate (makeDay (ofInt y) (ofInt m) (ofInt d))
      (makeTime (ofInt h) (ofInt mi) (ofInt sec) (ofInt 0))).sub (ofInt 0))) := by
  have hzero : ofRat (((0 : ℤ) : ℚ) * msPerMinute) = ofInt 0 := by
    rw [Int.cast_zero, zero_mul]
    exact_mod_cast ofRat_intCast (a := 0) (by decide)
  have htime : timeOfDay (clock :: rest) = ((ofInt h, ofInt mi, ofInt sec), rest) := by
    simp only [timeOfDay, List.head?_cons, Option.bind_some, hclock, List.drop_one, List.tail_cons]
  have hskip : skipWeekday (wd :: tokens) = .some tokens := by
    rw [skipWeekday, hweekday]
    rfl
  unfold parseFallback
  rw [hsplit, hskip, Outcome.some_bind, hday, Outcome.some_bind]
  simp only [List.head?_cons, List.drop_one, List.tail_cons, Outcome.ofOption, Outcome.some_bind, hyear,
    htime, hzone, hzero, ofRat_intCast hy]
  rfl

/-- The day behind the month, as the local text has them, and in front of it. -/
theorem dayMonth_month {dd : List Char} {d : Nat} (hname : MONTHS[m]? = some name) (hd : d < 100)
    (hfd : Field dd 2 d) :
    dayMonth (name :: dd :: rest) = .some (ofInt d, m, rest) := by
  simp only [dayMonth, List.head?_cons, Outcome.ofOption, Outcome.some_bind, (monthName_spec hname).1,
    List.getElem?_cons_succ, List.getElem?_cons_zero, trimCommas_printed hfd.printed,
    parseFloat_field hfd (by decide) (show d < 2 ^ 53 by omega), List.drop_succ_cons, List.drop_zero]
  rfl

theorem dayMonth_day {dd : List Char} {d : Nat} (hname : MONTHS[m]? = some name) (hd : d < 100)
    (hfd : Field dd 2 d) :
    dayMonth (dd :: name :: rest) = .some (ofInt d, m, rest) := by
  have hshort : monthIndex dd = .some none := by
    have hlength : (bytes dd).length < 3 := by
      rw [bytes_ascii hfd.ascii, List.length_map, hfd.length]
      decide
    rw [monthIndex, firstThree_short hlength]
    rfl
  simp only [dayMonth, List.head?_cons, Outcome.ofOption, Outcome.some_bind, hshort,
    (monthName_spec hname).1, List.getElem?_cons_succ, List.getElem?_cons_zero,
    trimCommas_printed hfd.printed, parseFloat_field hfd (by decide) (show d < 2 ^ 53 by omega),
    List.drop_succ_cons, List.drop_zero]
  rfl

end Words

/-! ## §6 The texts of a time value -/

section Texts

variable {turns m d h mi sec ms : Nat} {t y : ℤ}

theorem daysInMonth_le (y : ℤ) (m : Nat) : daysInMonth y m ≤ 31 := by
  unfold daysInMonth
  split
  · split <;> omega
  · split <;> omega

/-- The fields of a time value, as they are printed. -/
structure Shown (turns : Nat) (t y : ℤ) (m d h mi sec ms : Nat) : Prop
    extends Decomposed turns t y m d h mi sec ms where
  time : IsTimeValue t
  yearRange : -271821 ≤ y ∧ y ≤ 275760
  dayRange : 1 ≤ d ∧ d ≤ 31

/-- A property of all decomposed times holds of every time value from some number of turns on. -/
theorem of_shown {p : Nat → Prop} (ht : IsTimeValue t)
    (hp : ∀ {turns y m d h mi sec ms}, Shown turns t y m d h mi sec ms → p turns) :
    ∃ enough, ∀ turns ≥ enough, p turns := by
  obtain ⟨y, hy⟩ := exists_year (t / 86400000)
  refine ⟨(yearEstimate (ofInt (t / 86400000)) - y).natAbs + 1, fun turns hturns => ?_⟩
  have hyear : yearFromTime turns (ofInt t) = some (ofInt y) := yearFromTime_ofInt ht hy (by omega)
  obtain ⟨m, date, hour, min, sec, ms, hfields⟩ := decomposed_of_year ht hy hyear
  have hmonth := daysInMonth_le y m
  have hdate := hfields.dateRange
  obtain ⟨d, rfl⟩ := Int.eq_ofNat_of_zero_le (show 0 ≤ date by omega)
  obtain ⟨h, rfl⟩ := Int.eq_ofNat_of_zero_le hfields.hourRange.1
  obtain ⟨mi, rfl⟩ := Int.eq_ofNat_of_zero_le hfields.minRange.1
  obtain ⟨s, rfl⟩ := Int.eq_ofNat_of_zero_le hfields.secRange.1
  obtain ⟨u, rfl⟩ := Int.eq_ofNat_of_zero_le hfields.msRange.1
  exact hp ⟨hfields, ht, year_bounds (day_bounds ht) hy, by omega⟩

/-- Composing without the milliseconds gives the time at its last full second. -/
theorem Shown.composed_floor (hf : Shown turns t y m d h mi sec ms) :
    makeDate (makeDay (ofInt y) (ofInt m) (ofInt d)) (makeTime (ofInt h) (ofInt mi) (ofInt sec) (ofInt 0)) =
      ofInt (t - t % 1000) := by
  have hcomposed := hf.composed
  have hy := hf.yearRange
  have hd := hf.dayRange
  have hms := hf.msRange
  have hleap := leapDays_cases y
  have hstart := startOfMonth_bounds (show leapDays y = 0 ∨ leapDays y = 1 by omega) m
  have hday := makeDay_ofInt (show y.natAbs ≤ 200000000 by omega) hf.monthRange
    (show (d : ℤ).natAbs ≤ 1000 by omega)
  have hepoch := daysFromEpochToYear_eq y
  have htime := hf.hourRange
  have hmin := hf.minRange
  have hsec := hf.secRange
  rw [hday, makeTime_ofInt htime hmin hsec hms, makeDate_ofInt (by omega) (by omega)] at hcomposed
  rw [hday, makeTime_ofInt htime hmin hsec (by decide), makeDate_ofInt (by omega) (by omega)]
  simp only [ofInt, finite.injEq, Int.cast_inj] at hcomposed ⊢
  omega

theorem timeClip_time (ht : IsTimeValue t) : timeClip ((ofInt t).sub (ofInt 0)) = ofInt t := by
  have hle : |(t : ℚ)| ≤ 8640000000000000 := by
    rw [abs_le]
    exact ⟨by exact_mod_cast ht.1, by exact_mod_cast ht.2⟩
  have hclip : timeClip (ofInt t) = (ofInt t).trunc := if_pos hle
  unfold IsTimeValue at ht
  rw [sub_ofInt (by omega), Int.sub_zero, hclip, trunc_ofInt]

theorem isTimeValue_floor (ht : IsTimeValue t) : IsTimeValue (t - t % 1000) := by
  unfold IsTimeValue at ht ⊢
  omega

/-- The name printed for a time value is one of the seven. -/
theorem weekdayName_spec (ht : IsTimeValue t) : ∃ name ∈ WEEKDAYS, weekdayName (ofInt t) = some name := by
  have hday := day_bounds ht
  have hweek : weekDay (ofInt t) = ofInt ((t / 86400000 + 4) % 7) := by
    have hwrap := wrapped_rem (t / 86400000 + 4) (d := 7) (by decide) (by decide)
    unfold weekDay
    rw [day_ofInt ht, add_ofInt (by omega)]
    exact_mod_cast hwrap
  have hlt : ((t / 86400000 + 4) % 7).toNat < WEEKDAYS.length := by
    rw [show WEEKDAYS.length = 7 from rfl]
    omega
  refine ⟨WEEKDAYS[((t / 86400000 + 4) % 7).toNat], List.getElem_mem hlt, ?_⟩
  unfold weekdayName
  rw [hweek, toI64_ofInt (by omega), List.getElem?_eq_getElem hlt]

theorem Shown.monthName (hf : Shown turns t y m d h mi sec ms) :
    ∃ name, V12.DateTime.monthName (ofInt m) = some name ∧ MONTHS[m]? = some name := by
  have hm := hf.monthRange
  have hlt : m < MONTHS.length := hm
  refine ⟨MONTHS[m], ?_, List.getElem?_eq_getElem hlt⟩
  unfold V12.DateTime.monthName
  rw [toI64_ofInt (by omega), Int.toNat_natCast, List.getElem?_eq_getElem hlt]

theorem Shown.clockText (hf : Shown turns t y m d h mi sec ms) : V12.DateTime.clockText (ofInt t) =
    zeroPad 2 h ++ ':' :: (zeroPad 2 mi ++ ':' :: zeroPad 2 sec) := by
  have hh := hf.hourRange
  have hmi := hf.minRange
  have hs := hf.secRange
  unfold V12.DateTime.clockText
  rw [hf.hourEq, hf.minEq, hf.secEq, toI64_ofInt (by omega), toI64_ofInt (by omega),
    toI64_ofInt (by omega)]

theorem Shown.fields (hf : Shown turns t y m d h mi sec ms) : Field (zeroPad 2 (m + 1 : Nat)) 2 (m + 1) ∧
    Field (zeroPad 2 d) 2 d ∧ Field (zeroPad 2 h) 2 h ∧ Field (zeroPad 2 mi) 2 mi ∧
      Field (zeroPad 2 sec) 2 sec ∧ Field (zeroPad 3 ms) 3 ms := by
  have hm := hf.monthRange
  have hd := hf.dayRange
  have hh := hf.hourRange
  have hmi := hf.minRange
  have hs := hf.secRange
  have hms := hf.msRange
  refine ⟨field_zeroPad (by decide) ?_, field_zeroPad (by decide) ?_, field_zeroPad (by decide) ?_,
    field_zeroPad (by decide) ?_, field_zeroPad (by decide) ?_, field_zeroPad (by decide) ?_⟩
  all_goals omega

theorem head_formatYearExtended (hy : y.natAbs < 1000000) :
    ∃ c cs, formatYearExtended (ofInt y) = c :: cs ∧ isWhitespace c = false := by
  have htoI64 := toI64_ofInt (n := y) (by omega)
  unfold formatYearExtended
  simp only [htoI64]
  split
  · next hfour =>
    obtain ⟨n, rfl⟩ := Int.eq_ofNat_of_zero_le hfour.1
    have hfield := field_zeroPad (k := 4) (n := n) (by decide) (by omega)
    obtain ⟨c, cs, hcs⟩ := List.exists_cons_of_ne_nil (hfield.ne_nil (by decide))
    have hword := word_of_printed (hfield.ne_nil (by decide)) hfield.printed
    exact ⟨c, cs, hcs, hword.solid c (hcs ▸ List.mem_cons_self)⟩
  · split
    · exact ⟨'+', _, rfl, rfl⟩
    · exact ⟨'-', _, rfl, rfl⟩

/-- The ISO text of a decomposed time is read back. -/
theorem Shown.iso (hf : Shown turns t y m d h mi sec ms) : ∃ text,
    toIsoString turns (ofInt t) = some (some text) ∧ parseDate text = .some (ofInt t) := by
  obtain ⟨hfmon, hfd, hfh, hfmi, hfs, hfms⟩ := hf.fields
  have hy := hf.yearRange
  have hm := hf.monthRange
  have hd := hf.dayRange
  have hms := hf.msRange
  have hh := hf.hourRange
  have hmi := hf.minRange
  have hsec := hf.secRange
  have htext : toIsoString turns (ofInt t) = some (some (formatYearExtended (ofInt y) ++
      '-' :: (zeroPad 2 (m + 1 : Nat) ++ '-' :: (zeroPad 2 d ++ 'T' :: (zeroPad 2 h ++
        ':' :: (zeroPad 2 mi ++ ':' :: (zeroPad 2 sec ++ '.' :: (zeroPad 3 ms ++ ['Z'])))))))) := by
    have hmonth : (ofInt (m : ℤ)).toI64 = m := toI64_ofInt (by omega)
    have hdate : (ofInt (d : ℤ)).toI64 = d := toI64_ofInt (by omega)
    have hfrac : (ofInt (ms : ℤ)).toI64 = ms := toI64_ofInt (by omega)
    have hfinite : (ofInt t).isFinite = true := rfl
    simp only [toIsoString, hfinite, if_true, hf.year, hf.monthEq, hf.dateEq, hf.msEq, hf.clockText,
      hmonth, hdate, hfrac, Option.bind_eq_bind, Option.bind_some, Option.pure_def, Nat.cast_add,
      Nat.cast_one, List.append_assoc, List.cons_append]
  refine ⟨_, htext, ?_⟩
  generalize hs : formatYearExtended (ofInt y) ++ _ = text
  obtain ⟨c, cs, hc, hsolid⟩ := head_formatYearExtended (y := y) (by omega)
  have htrim : trimText text = text := by
    refine trimText_ends (fun a ha => ?_) fun a ha => ?_
    · rw [← hs, hc, List.cons_append] at ha
      rwa [← Option.some.inj ha]
    · rw [← hs] at ha
      simp [List.getLast?_append, List.getLast?_cons] at ha
      rw [← ha]
      rfl
  have hne : text ≠ [] := by
    rw [← hs, hc]
    exact List.cons_ne_nil _ _
  have hparse := parseIso_text (c := ⟨h, mi, sec, ofInt ms⟩) (by omega) hm hd hfmon hfd ⟨hfh, hfmi, hfs,
    hfms, ⟨Int.ofNat_lt.mp hh.2, Int.ofNat_lt.mp hmi.2, Int.ofNat_lt.mp hsec.2, rfl⟩, by omega⟩ hs.symm
  rw [hf.composed, timeClip_time hf.time] at hparse
  simp only [parseDate, htrim, if_neg hne, hparse]

theorem parseDate_words {wd : List Char} {words : List (List Char)} (h : ∀ w ∈ wd :: words, Word w)
    (hletter : ∀ c ∈ wd.head?, c.toNat < 128 ∧ c ≠ '+' ∧ c ≠ '-' ∧ asciiDigit c.toNat = false) :
    parseDate (spaced (wd :: words)) = parseFallback (spaced (wd :: words)) := by
  have hwd := h wd List.mem_cons_self
  have hhead : ∀ c ∈ (spaced (wd :: words)).head?, c ∈ wd.head? := head_spaced hwd
  have hne := spaced_ne_nil (List.cons_ne_nil wd words) h
  have htrim : trimText (spaced (wd :: words)) = spaced (wd :: words) :=
    trimText_ends (fun c hc => hwd.solid c (List.mem_of_mem_head? (hhead c hc))) (getLast_spaced h)
  unfold parseDate
  simp only [htrim, if_neg hne]
  obtain ⟨c, cs, hc⟩ := List.exists_cons_of_ne_nil hne
  rw [hc, parseIso_letter (hletter c (hhead c (by rw [hc]; rfl)))]

theorem zone_words : zoneOffset ["GMT".toList] = 0 ∧
    zoneOffset ["GMT+0000".toList, "(Coordinated".toList, "Universal".toList, "Time)".toList] = 0 ∧
    ∀ w ∈ ["GMT".toList, "GMT+0000".toList, "(Coordinated".toList, "Universal".toList, "Time)".toList],
      Word w := by
  decide

/-- A text of a day, a date, a clock and a zone is read back at its last full second. -/
theorem Shown.read {wd first second : List Char} {zone : List (List Char)}
    (hf : Shown turns t y m d h mi sec ms)
    (hwords : ∀ w ∈ wd :: first :: second :: zone, Word w)
    (hletter : ∀ c ∈ wd.head?, c.toNat < 128 ∧ c ≠ '+' ∧ c ≠ '-' ∧ asciiDigit c.toNat = false)
    (hweekday : isWeekday wd = .some true)
    (hday : ∀ rest, dayMonth (first :: second :: rest) = .some (ofInt d, m, rest))
    (hzone : zoneOffset zone = 0) :
    parseDate (spaced (wd :: first :: second :: formatYearPlain (ofInt y) ::
      (zeroPad 2 h ++ ':' :: (zeroPad 2 mi ++ ':' :: zeroPad 2 sec)) :: zone)) =
        .some (ofInt (t - t % 1000)) := by
  obtain ⟨-, -, hfh, hfmi, hfs, -⟩ := hf.fields
  have hy := hf.yearRange
  have hh := hf.hourRange
  have hmi := hf.minRange
  have hsec := hf.secRange
  obtain ⟨hyear, hyword⟩ := parseI64_year (y := y) (by omega)
  have hclock := word_clock hfh hfmi hfs
  simp only [List.forall_mem_cons] at hwords
  obtain ⟨hwd, hfirst, hsecond, hrest⟩ := hwords
  have hall : ∀ w ∈ wd :: first :: second :: formatYearPlain (ofInt y) ::
      (zeroPad 2 h ++ ':' :: (zeroPad 2 mi ++ ':' :: zeroPad 2 sec)) :: zone, Word w := by
    simp only [List.forall_mem_cons]
    exact ⟨hwd, hfirst, hsecond, hyword, hclock, hrest⟩
  rw [parseDate_words hall hletter, parseFallback_text (splitWhitespace_spaced hall) hweekday
    (hday _) hyear (by omega) (parseHms_fields hfh hfmi hfs (by omega)) hzone, hf.composed_floor,
    timeClip_time (isTimeValue_floor hf.time)]

/-- The local text is read back. -/
theorem Shown.string (hf : Shown turns t y m d h mi sec ms) : ∃ text,
    formatDateTime turns (ofInt t) = some text ∧ parseDate text = .some (ofInt (t - t % 1000)) := by
  have hfd := hf.fields.2.1
  have hd := hf.dayRange
  obtain ⟨wd, hmem, hweekday⟩ := weekdayName_spec hf.time
  obtain ⟨name, hname, hmonth⟩ := hf.monthName
  obtain ⟨hwd, -, hwdword, -, hletter⟩ := weekday_words wd hmem
  obtain ⟨-, hzone, hzwords⟩ := zone_words
  have hnan : ofInt t ≠ .nan := fun h => by cases h
  have hdate : (ofInt (d : ℤ)).toI64 = d := toI64_ofInt (by omega)
  refine ⟨_, ?_, hf.read ?_ hletter hwd (fun _ => dayMonth_month hmonth (by omega) hfd) hzone⟩
  · simp only [formatDateTime, dateString, if_neg hnan, timeString, hweekday, hf.monthEq, hname,
      hf.dateEq, hf.year, hdate, hf.clockText, Option.bind_eq_bind, Option.bind_some, Option.pure_def,
      List.append_assoc, List.cons_append, spaced_cons]
    rfl
  · simp only [List.forall_mem_cons]
    exact ⟨hwdword, (monthName_spec hmonth).2, word_of_printed (hfd.ne_nil (by decide)) hfd.printed,
      hzwords _ (by simp), hzwords _ (by simp), hzwords _ (by simp), hzwords _ (by simp), by simp⟩

/-- The UTC text is read back. -/
theorem Shown.utc (hf : Shown turns t y m d h mi sec ms) : ∃ text,
    utcString turns (ofInt t) = some text ∧ parseDate text = .some (ofInt (t - t % 1000)) := by
  have hfd := hf.fields.2.1
  have hd := hf.dayRange
  obtain ⟨wd, hmem, hweekday⟩ := weekdayName_spec hf.time
  obtain ⟨name, hname, hmonth⟩ := hf.monthName
  obtain ⟨-, hwd, hplain, hwdword, hletter⟩ := weekday_words wd hmem
  obtain ⟨hzone, -, hzwords⟩ := zone_words
  have hnan : ofInt t ≠ .nan := fun h => by cases h
  have hdate : (ofInt (d : ℤ)).toI64 = d := toI64_ofInt (by omega)
  have hletter' : ∀ c ∈ (wd ++ [',']).head?, c.toNat < 128 ∧ c ≠ '+' ∧ c ≠ '-' ∧
      asciiDigit c.toNat = false := by
    obtain ⟨c, cs, rfl⟩ := List.exists_cons_of_ne_nil hplain.ne_nil
    exact hletter
  refine ⟨_, ?_, hf.read ?_ hletter' hwd (fun _ => dayMonth_day hmonth (by omega) hfd) hzone⟩
  · simp only [utcString, if_neg hnan, hweekday, hf.monthEq, hname, hf.dateEq, hf.year, hdate,
      hf.clockText, Option.bind_eq_bind, Option.bind_some, Option.pure_def, List.append_assoc,
      List.cons_append, List.nil_append, spaced_cons]
    rfl
  · simp only [List.forall_mem_cons]
    exact ⟨hwdword, word_of_printed (hfd.ne_nil (by decide)) hfd.printed, (monthName_spec hmonth).2,
      hzwords _ (by simp), by simp⟩

end Texts

/-- **Every text of a time value is read back**, whatever its year. -/
theorem readsBack : ReadsBack where
  iso _ ht := of_shown ht fun hf => hf.iso
  string _ ht := of_shown ht fun hf => hf.string
  utc _ ht := of_shown ht fun hf => hf.utc

end V12.DateTime
