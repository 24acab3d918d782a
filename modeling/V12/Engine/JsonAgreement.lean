/-
V12.Engine.JsonAgreement — where `JSON.parse` agrees with ECMA-404.

The parser reads every text of the wide grammar in which escapes write surrogates
in pairs (`value_of_spells`), and nothing else (`reads`). What it makes of a
string is `strText`, so that unpaired surrogates are replaced.
-/
import V12.Engine.JsonParseTheorems

namespace V12.Json

open Lib.JsonText (Units Doc Tokens IsText Spells Phrase unit units Blank isBlank isCloser Next
  Follow AllElements AllMembers shapeAt Shape)
open Lib.Utf8 Lib.Utf16

/-! ## §1 The grammar's texts are read -/

def strText (ps : List Piece) : List (BitVec 16) := encode (decode (codes ps))

def Paired : Phrase Numeral (List Piece) → Prop
  | .value d | .element d => NoLoneEscape d
  | .elements ds => AllElements (fun _ => True) EscapesPaired ds
  | .member k d => EscapesPaired k ∧ NoLoneEscape d
  | .members ms => AllMembers (fun _ => True) EscapesPaired ms

/-- The parser reads a part that begins `us`, up to `r`. -/
def ReadsPart (len : Nat) : Phrase Numeral (List Piece) → Units → Units → Prop
  | .value d, us, r => ∀ fuel x, ws x = wire us → 2 * us.length + 1 ≤ fuel →
      value len fuel x = .ok (toValue strText d, wire r)
  | .element d, us, r => ∀ fuel, 2 * us.length + 1 ≤ fuel →
      ∃ x, value len fuel (wire us) = .ok (toValue strText d, x) ∧ ws x = wire r
  | .elements ds, us, r => ∀ fuel items r', r = unit ']' :: r' → 2 * us.length + 2 ≤ fuel →
      elements len fuel items (wire us) = .ok (.array (items ++ toValues strText ds), wire r')
  | .member k d, us, r => ∀ fuel, 2 * us.length ≤ fuel →
      ∃ x, ReadsMember len fuel (wire us) (decode (codes k)) (toValue strText d) x ∧ ws x = wire r
  | .members ms, us, r => ∀ fuel props r', r = unit '\x7d' :: r' → 2 * us.length + 1 ≤ fuel →
      members len fuel props (wire us) = .ok (.object (toProps strText props ms), wire r')

theorem head_ne {u : BitVec 16} {t : Units} {k : Shape} (hu : shapeAt u = some k) {c : Char}
    (hc : c.toNat < 128) (hnone : shapeAt (unit c) = none) :
    (wire (u :: t)).head? ≠ some (byte c) := by
  intro hhead
  obtain ⟨us', hus, -⟩ := exists_of_head hc hhead
  obtain ⟨rfl, -⟩ := List.cons.inj hus
  rw [hnone] at hu
  cases hu

theorem ws_of_blank_unit {us r : Units} {c : Char} (hc : c.toNat < 128)
    (hblank : isBlank (unit c) = false) (h : Blank us (unit c :: r)) :
    ws (wire us) = byte c :: wire r := by
  rw [ws_of_blank h (Lib.JsonText.next_not_blank hblank), wire_unit hc]

theorem ws_of_elements {ds : List Document} {us r : Units}
    (h : Spells tokens (.elements ds) us r) : (ws (wire us)).head? ≠ some (byte ']') := by
  obtain ⟨u, t, k, hblank, hu⟩ := Lib.JsonText.elements_start lawful_tokens h (.inr ⟨_, rfl⟩)
  have hnot := Lib.JsonText.not_isBlank_of_shapeAt hu
  rw [ws_of_blank hblank (Lib.JsonText.next_not_blank hnot)]
  exact head_ne hu (by decide) (by decide)

theorem ws_of_members {ms : List (List Piece × Document)} {us r : Units}
    (h : Spells tokens (.members ms) us r) : (ws (wire us)).head? ≠ some (byte '\x7d') := by
  obtain ⟨t, hblank⟩ := Lib.JsonText.members_start lawful_tokens h (.inr ⟨_, rfl⟩)
  rw [ws_of_blank hblank (Lib.JsonText.next_not_blank (by decide))]
  exact head_ne (u := unit '"') rfl (by decide) (by decide)

theorem ascii_word {word : List Char} (h : word.all (fun c => c.toNat < 128) = true) :
    V12.Interp.Ascii word := by
  intro c hc
  exact of_decide_eq_true (List.all_eq_true.mp h c hc)

theorem reads_null (len : Nat) (r : Units) :
    ReadsPart len (.value .null) (units "null".toList ++ r) r := by
  intro fuel x hx hfuel
  rw [wire_units (ascii_word (by decide))] at hx
  cases fuel with
  | zero => omega
  | succ fuel => exact (value_null hx).trans (literal_append len _ _ _)

theorem reads_bool (len : Nat) (b : Bool) (r : Units) :
    ReadsPart len (.value (.bool b)) (units (Lib.JsonText.boolText b) ++ r) r := by
  intro fuel x hx hfuel
  cases fuel with
  | zero => omega
  | succ fuel =>
    cases b with
    | true =>
      rw [wire_units (ascii_word (by decide))] at hx
      exact (value_true hx).trans (literal_append len _ _ _)
    | false =>
      rw [wire_units (ascii_word (by decide))] at hx
      exact (value_false hx).trans (literal_append len _ _ _)

theorem reads_number (len : Nat) (n : Numeral) {r : Units} (hr : Follow r) :
    ReadsPart len (.value (.number n)) (tokens.number n ++ r) r := by
  intro fuel x hx hfuel
  cases fuel with
  | zero => omega
  | succ fuel =>
    obtain ⟨u, t, hnumber, hu⟩ := lawful_tokens.number_start n
    simp only [Lib.JsonText.startsNumber, Bool.or_eq_true, Bool.and_eq_true, decide_eq_true_eq]
      at hu
    have hlt : u.toNat < 128 := by
      rcases hu with rfl | hu
      · decide
      · omega
    have hstart : u.toNat = byte '-' ∨ asciiDigit u.toNat = true := by
      rcases hu with rfl | hu
      · exact .inl rfl
      · exact .inr (by simp [asciiDigit, hu])
    have hwire : wire (tokens.number n ++ r) = u.toNat :: wire (t ++ r) := by
      rw [hnumber, List.cons_append, wire_cons hlt]
    rw [hwire] at hx
    rw [value_number hstart hx, ← hwire]
    exact number_wire n hr

theorem reads_string (len : Nat) {ps : List Piece} (hps : EscapesPaired ps) (r : Units) :
    ReadsPart len (.value (.string ps)) (tokens.string ps ++ r) r := by
  intro fuel x hx hfuel
  cases fuel with
  | zero => omega
  | succ fuel =>
    have hstring := string_wire len hps r
    rw [string_append, wire_unit (by decide)] at hx hstring
    rw [value_quote hx, hstring]
    rfl

section Parts

variable {len : Nat} {us us' r : Units} {ds : List Document} {ms : List (List Piece × Document)}
  {k : List Piece} {d : Document}

theorem reads_emptyArray (h : Blank us (unit ']' :: r)) :
    ReadsPart len (.value (.array [])) (unit '[' :: us) r := by
  intro fuel x hx hfuel
  cases fuel with
  | zero => omega
  | succ fuel =>
    rw [wire_unit (by decide)] at hx
    rw [value_bracket hx, ws_of_blank_unit (by decide) (by decide) h]
    rfl

theorem reads_array (h : Spells tokens (.elements ds) us (unit ']' :: r))
    (ih : ReadsPart len (.elements ds) us (unit ']' :: r)) :
    ReadsPart len (.value (.array ds)) (unit '[' :: us) r := by
  intro fuel x hx hfuel
  cases fuel with
  | zero => omega
  | succ fuel =>
    rw [wire_unit (by decide)] at hx
    rw [value_bracket hx, if_neg (ws_of_elements h)]
    rw [List.length_cons] at hfuel
    exact ih fuel [] r rfl (by omega)

theorem reads_emptyObject (h : Blank us (unit '\x7d' :: r)) :
    ReadsPart len (.value (.object [])) (unit '\x7b' :: us) r := by
  intro fuel x hx hfuel
  cases fuel with
  | zero => omega
  | succ fuel =>
    rw [wire_unit (by decide)] at hx
    rw [value_brace hx, ws_of_blank_unit (by decide) (by decide) h]
    rfl

theorem reads_object (h : Spells tokens (.members ms) us (unit '\x7d' :: r))
    (ih : ReadsPart len (.members ms) us (unit '\x7d' :: r)) :
    ReadsPart len (.value (.object ms)) (unit '\x7b' :: us) r := by
  intro fuel x hx hfuel
  cases fuel with
  | zero => omega
  | succ fuel =>
    rw [wire_unit (by decide)] at hx
    rw [value_brace hx, if_neg (ws_of_members h)]
    rw [List.length_cons] at hfuel
    exact ih fuel [] r rfl (by omega)

theorem reads_element {u₁ u₂ : Units} (hlead : Blank us u₁) (h : Spells tokens (.value d) u₁ u₂)
    (htrail : Blank u₂ r) (hr : Next isCloser r) (ih : ReadsPart len (.value d) u₁ u₂) :
    ReadsPart len (.element d) us r := by
  intro fuel hfuel
  obtain ⟨u, t, hus, hu⟩ := Lib.JsonText.value_start lawful_tokens h rfl
  have hnot := Lib.JsonText.next_not_blank (t := t) (Lib.JsonText.not_isBlank_of_shapeAt hu)
  rw [← hus] at hnot
  have hle := hlead.length_le
  exact ⟨wire u₂, ih fuel (wire us) (ws_of_blank hlead hnot) (by omega),
    ws_of_blank htrail (Lib.JsonText.next_not_blank_of_closer hr)⟩

theorem reads_lastElement (ih : ReadsPart len (.element d) us r) :
    ReadsPart len (.elements [d]) us r := by
  rintro fuel items r' rfl hfuel
  cases fuel with
  | zero => omega
  | succ fuel =>
    obtain ⟨x, hvalue, hx⟩ := ih fuel (by omega)
    rw [wire_unit (by decide)] at hx
    exact elements_end hvalue hx

theorem reads_moreElements (h : Spells tokens (.element d) us (unit ',' :: us'))
    (ih : ReadsPart len (.element d) us (unit ',' :: us'))
    (ihrest : ReadsPart len (.elements ds) us' r) : ReadsPart len (.elements (d :: ds)) us r := by
  rintro fuel items r' hr hfuel
  cases fuel with
  | zero => omega
  | succ fuel =>
    have hlength := h.length_le
    rw [List.length_cons] at hlength
    obtain ⟨x, hvalue, hx⟩ := ih fuel (by omega)
    rw [wire_unit (by decide)] at hx
    rw [elements_comma hvalue hx, ihrest fuel _ r' hr (by omega), List.append_assoc]
    rfl

theorem reads_member {u₁ u₂ : Units} (hk : EscapesPaired k)
    (hlead : Blank us (tokens.string k ++ u₁)) (hcolon : Blank u₁ (unit ':' :: u₂))
    (ih : ReadsPart len (.element d) u₂ r) : ReadsPart len (.member k d) us r := by
  intro fuel hfuel
  have hle := hlead.length_le
  have hle' := hcolon.length_le
  simp only [List.length_append, List.length_cons] at hle hle'
  obtain ⟨x, hvalue, hx⟩ := ih fuel (by omega)
  have hkey : ws (wire us) = wire (tokens.string k ++ u₁) := by
    refine ws_of_blank hlead ?_
    rw [string_append]
    exact Lib.JsonText.next_not_blank (by decide)
  refine ⟨x, ⟨wire u₁, wire u₂, ?_, ws_of_blank_unit (by decide) (by decide) hcolon, hvalue⟩, hx⟩
  rw [hkey, string_wire len hk]

theorem reads_lastMember (ih : ReadsPart len (.member k d) us r) :
    ReadsPart len (.members [(k, d)]) us r := by
  rintro fuel props r' rfl hfuel
  cases fuel with
  | zero => omega
  | succ fuel =>
    obtain ⟨x, hmember, hx⟩ := ih fuel (by omega)
    rw [wire_unit (by decide)] at hx
    exact members_end hmember hx

theorem reads_moreMembers (h : Spells tokens (.member k d) us (unit ',' :: us'))
    (ih : ReadsPart len (.member k d) us (unit ',' :: us'))
    (ihrest : ReadsPart len (.members ms) us' r) :
    ReadsPart len (.members ((k, d) :: ms)) us r := by
  rintro fuel props r' hr hfuel
  cases fuel with
  | zero => omega
  | succ fuel =>
    have hlength := h.length_le
    rw [List.length_cons] at hlength
    obtain ⟨x, hmember, hx⟩ := ih fuel (by omega)
    rw [wire_unit (by decide)] at hx
    rw [members_comma hmember hx, ihrest fuel _ r' hr (by omega)]
    rfl

end Parts

/-- **Every part that is spelled is read**, if its escapes are paired. -/
theorem readsPart (len : Nat) {p : Phrase Numeral (List Piece)} {us r : Units}
    (h : Spells tokens p us r) : p.Ends r → Paired p → ReadsPart len p us r := by
  induction h with
  | null => exact fun _ _ => reads_null len _
  | bool => exact fun _ _ => reads_bool len _ _
  | number => exact fun hr _ => reads_number len _ hr
  | string => exact fun _ hpaired => reads_string len hpaired _
  | emptyArray hblank => exact fun _ _ => reads_emptyArray hblank
  | array h ih => exact fun _ hpaired => reads_array h (ih rfl hpaired)
  | emptyObject hblank => exact fun _ _ => reads_emptyObject hblank
  | object h ih => exact fun _ hpaired => reads_object h (ih rfl hpaired)
  | element hlead h htrail ih =>
    intro hr hpaired
    exact reads_element hlead h htrail hr (ih (Lib.JsonText.follow_of_blank htrail hr) hpaired)
  | lastElement _ ih =>
    intro hr hpaired
    exact reads_lastElement (ih (Lib.JsonText.next_of_head hr (by decide)) hpaired.1)
  | moreElements h _ ih ihrest =>
    intro hr hpaired
    exact reads_moreElements h (ih (Lib.JsonText.next_cons (by decide)) hpaired.1)
      (ihrest hr hpaired.2)
  | member hlead hcolon _ ih =>
    intro hr hpaired
    exact reads_member hpaired.1 hlead hcolon (ih hr hpaired.2)
  | lastMember _ ih =>
    intro hr hpaired
    exact reads_lastMember
      (ih (Lib.JsonText.next_of_head hr (by decide)) ⟨hpaired.1, hpaired.2.1⟩)
  | moreMembers h _ ih ihrest =>
    intro hr hpaired
    exact reads_moreMembers h
      (ih (Lib.JsonText.next_cons (by decide)) ⟨hpaired.1, hpaired.2.1⟩)
      (ihrest hr hpaired.2.2)

/-! ## §2 What is read is a text of the grammar -/

def ValueRead (us : Units) (p : Value × List Nat) : Prop :=
  ∃ d u₁ r, Blank us u₁ ∧ Spells tokens (.value d) u₁ r ∧ NoLoneEscape d ∧
    p = (toValue strText d, wire r)

def ElementsRead (items : List Value) (us : Units) (p : Value × List Nat) : Prop :=
  ∃ ds r, Spells tokens (.elements ds) us (unit ']' :: r) ∧ Paired (.elements ds) ∧
    p = (.array (items ++ toValues strText ds), wire r)

def MembersRead (props : Props) (us : Units) (p : Value × List Nat) : Prop :=
  ∃ ms r, Spells tokens (.members ms) us (unit '\x7d' :: r) ∧ Paired (.members ms) ∧
    p = (.object (toProps strText props ms), wire r)

theorem exists_blank_unit {us : Units} {c : Char} {z : List Nat} (hc : c.toNat < 128)
    (h : ws (wire us) = byte c :: z) : ∃ us', Blank us (unit c :: us') ∧ z = wire us' := by
  obtain ⟨r, hblank, -, hws⟩ := exists_ws us
  obtain ⟨us', rfl, hz⟩ := exists_of_wire_unit hc (hws.symm.trans h)
  exact ⟨us', hblank, hz⟩

section Read

variable {len fuel : Nat} {us us' : Units} {p : Value × List Nat}

theorem literalRead {c : Char} {word : List Char} {v : Value} {d : Document} (hc : c.toNat < 128)
    (hword : V12.Interp.Ascii word) (hd : NoLoneEscape d) (hv : toValue strText d = v)
    (hspells : ∀ r, Spells tokens (.value d) (units word ++ r) r)
    (hblank : Blank us (unit c :: us')) (h : literal len word v (byte c :: wire us') = .ok p) :
    ValueRead us p := by
  obtain ⟨w, x⟩ := p
  obtain ⟨hwire, rfl⟩ := exists_literal h
  rw [← wire_unit hc] at hwire
  have hlt : ∀ b ∈ bytes word, b < 128 := by
    intro b hb
    rw [bytes_ascii hword] at hb
    obtain ⟨a, ha, rfl⟩ := List.mem_map.mp hb
    exact hword a ha
  obtain ⟨t, r, hus, hbytes, -, rfl⟩ := exists_of_wire_append hlt hwire
  obtain rfl := bytes_injective hbytes
  exact ⟨d, unit c :: us', r, hblank, hus ▸ hspells r, hd, by rw [hv]⟩

theorem numberRead {b : Nat} {y : List Nat} (hws : ws (wire us) = b :: y)
    (h : number (b :: y) = .ok p) : ValueRead us p := by
  obtain ⟨v, x⟩ := p
  obtain ⟨r, hblank, -, hr⟩ := exists_ws us
  rw [← hws, hr] at h
  obtain ⟨n, r', rfl, rfl, rfl⟩ := exists_number h
  exact ⟨.number n, _, r', hblank, .number, trivial, rfl⟩

theorem stringRead (hblank : Blank us (unit '"' :: us'))
    (h : (string len (byte '"' :: wire us') >>= fun p => .ok (.string (encode p.1), p.2)) = .ok p) :
    ValueRead us p := by
  rw [← wire_unit (by decide)] at h
  cases hstring : string len (wire (unit '"' :: us')) with
  | error e =>
    rw [hstring] at h
    cases h
  | ok q =>
    obtain ⟨t, x⟩ := q
    rw [hstring] at h
    obtain ⟨ps, r, hus, hps, rfl, rfl⟩ := exists_string hstring
    refine ⟨.string ps, _, r, hblank, ?_, hps, (Except.ok.inj h).symm⟩
    rw [hus]
    exact .string

theorem arrayRead (hblank : Blank us (unit '[' :: us'))
    (ih : ∀ p, elements len fuel [] (wire us') = .ok p → ElementsRead [] us' p)
    (h : (if (ws (wire us')).head? = some (byte ']') then
        (.ok (.array [], (ws (wire us')).tail) : Reads (Value × List Nat))
      else elements len fuel [] (wire us')) = .ok p) : ValueRead us p := by
  split at h
  case isTrue hend =>
    obtain ⟨z, hz⟩ := List.head?_eq_some_iff.mp hend
    obtain ⟨r, hblank', rfl⟩ := exists_blank_unit (by decide) hz
    refine ⟨.array [], _, r, hblank, .emptyArray hblank', trivial, ?_⟩
    rw [hz] at h
    exact (Except.ok.inj h).symm
  case isFalse =>
    obtain ⟨ds, r, hspells, hpaired, hp⟩ := ih p h
    exact ⟨.array ds, _, r, hblank, .array hspells, hpaired, hp⟩

theorem objectRead (hblank : Blank us (unit '\x7b' :: us'))
    (ih : ∀ p, members len fuel [] (wire us') = .ok p → MembersRead [] us' p)
    (h : (if (ws (wire us')).head? = some (byte '\x7d') then
        (.ok (.object [], (ws (wire us')).tail) : Reads (Value × List Nat))
      else members len fuel [] (wire us')) = .ok p) : ValueRead us p := by
  split at h
  case isTrue hend =>
    obtain ⟨z, hz⟩ := List.head?_eq_some_iff.mp hend
    obtain ⟨r, hblank', rfl⟩ := exists_blank_unit (by decide) hz
    refine ⟨.object [], _, r, hblank, .emptyObject hblank', trivial, ?_⟩
    rw [hz] at h
    exact (Except.ok.inj h).symm
  case isFalse =>
    obtain ⟨ms, r, hspells, hpaired, hp⟩ := ih p h
    exact ⟨.object ms, _, r, hblank, .object hspells, hpaired, hp⟩

theorem valueRead (hmembers : ∀ props us p, members len fuel props (wire us) = .ok p →
      MembersRead props us p)
    (helements : ∀ items us p, elements len fuel items (wire us) = .ok p → ElementsRead items us p)
    (h : value len (fuel + 1) (wire us) = .ok p) : ValueRead us p := by
  obtain ⟨b, y, hws, hb⟩ := value_cases h
  rcases hb with rfl | rfl | rfl | rfl | rfl | rfl | hb
  · obtain ⟨us', hblank, rfl⟩ := exists_blank_unit (by decide) hws
    rw [value_brace hws] at h
    exact objectRead hblank (hmembers [] us') h
  · obtain ⟨us', hblank, rfl⟩ := exists_blank_unit (by decide) hws
    rw [value_bracket hws] at h
    exact arrayRead hblank (helements [] us') h
  · obtain ⟨us', hblank, rfl⟩ := exists_blank_unit (by decide) hws
    rw [value_quote hws] at h
    exact stringRead hblank h
  · obtain ⟨us', hblank, rfl⟩ := exists_blank_unit (by decide) hws
    rw [value_true hws] at h
    exact literalRead (d := .bool true) (by decide) (ascii_word (by decide)) trivial rfl
      (fun _ => .bool) hblank h
  · obtain ⟨us', hblank, rfl⟩ := exists_blank_unit (by decide) hws
    rw [value_false hws] at h
    exact literalRead (d := .bool false) (by decide) (ascii_word (by decide)) trivial rfl
      (fun _ => .bool) hblank h
  · obtain ⟨us', hblank, rfl⟩ := exists_blank_unit (by decide) hws
    rw [value_null hws] at h
    exact literalRead (d := .null) (by decide) (ascii_word (by decide)) trivial rfl
      (fun _ => .null) hblank h
  · rw [value_number hb hws] at h
    exact numberRead hws h

theorem elementsRead {items : List Value}
    (hvalue : ∀ us p, value len fuel (wire us) = .ok p → ValueRead us p)
    (ih : ∀ items us p, elements len fuel items (wire us) = .ok p → ElementsRead items us p)
    (h : elements len (fuel + 1) items (wire us) = .ok p) : ElementsRead items us p := by
  obtain ⟨v, y, z, hv, hnext⟩ := elements_cases h
  obtain ⟨d, u₁, u₂, hlead, hspells, hpaired, heq⟩ := hvalue us (v, y) hv
  obtain ⟨rfl, rfl⟩ := Prod.mk.inj heq
  rcases hnext with ⟨hws, hrest⟩ | ⟨hws, rfl⟩
  · obtain ⟨us', htrail, rfl⟩ := exists_blank_unit (by decide) hws
    obtain ⟨ds, r, hmore, hpaired', rfl⟩ := ih _ us' p hrest
    refine ⟨d :: ds, r, .moreElements (.element hlead hspells htrail) hmore, ⟨hpaired, hpaired'⟩, ?_⟩
    rw [List.append_assoc]
    rfl
  · obtain ⟨r, htrail, rfl⟩ := exists_blank_unit (by decide) hws
    exact ⟨[d], r, .lastElement (.element hlead hspells htrail), ⟨hpaired, trivial⟩, rfl⟩

theorem membersRead {props : Props}
    (hvalue : ∀ us p, value len fuel (wire us) = .ok p → ValueRead us p)
    (ih : ∀ props us p, members len fuel props (wire us) = .ok p → MembersRead props us p)
    (h : members len (fuel + 1) props (wire us) = .ok p) : MembersRead props us p := by
  obtain ⟨key, v, w, z, hmember, hnext⟩ := members_cases h
  obtain ⟨x, t, hkey, hcolon, hv⟩ := hmember.read
  obtain ⟨u₀, hblank, -, hu₀⟩ := exists_ws us
  rw [hu₀] at hkey
  obtain ⟨k, u, rfl, hk, rfl, rfl⟩ := exists_string hkey
  obtain ⟨u', hmid, rfl⟩ := exists_blank_unit (by decide) hcolon
  obtain ⟨d, u₁, u₂, hlead, hspells, hpaired, heq⟩ := hvalue u' (v, w) hv
  obtain ⟨rfl, rfl⟩ := Prod.mk.inj heq
  rcases hnext with ⟨hws, hrest⟩ | ⟨hws, rfl⟩
  · obtain ⟨us', htrail, rfl⟩ := exists_blank_unit (by decide) hws
    obtain ⟨ms, r, hmore, hpaired', rfl⟩ := ih _ us' p hrest
    exact ⟨(k, d) :: ms, r, .moreMembers (.member hblank hmid (.element hlead hspells htrail)) hmore,
      ⟨hk, hpaired, hpaired'⟩, rfl⟩
  · obtain ⟨r, htrail, rfl⟩ := exists_blank_unit (by decide) hws
    exact ⟨[(k, d)], r, .lastMember (.member hblank hmid (.element hlead hspells htrail)),
      ⟨hk, hpaired, trivial⟩, rfl⟩

end Read

/-- **What is read is spelled** by the grammar. -/
theorem read (len fuel : Nat) :
    (∀ us p, value len fuel (wire us) = .ok p → ValueRead us p) ∧
      (∀ props us p, members len fuel props (wire us) = .ok p → MembersRead props us p) ∧
        ∀ items us p, elements len fuel items (wire us) = .ok p → ElementsRead items us p := by
  induction fuel with
  | zero =>
    refine ⟨?_, ?_, ?_⟩
    · intro us p h
      cases h
    · intro props us p h
      cases h
    · intro items us p h
      cases h
  | succ fuel ih =>
    obtain ⟨hvalue, hmembers, helements⟩ := ih
    refine ⟨?_, ?_, ?_⟩
    · exact fun us p h => valueRead hmembers helements h
    · exact fun props us p h => membersRead hvalue hmembers h
    · exact fun items us p h => elementsRead hvalue helements h

/-! ## §3 Whole texts -/

/-- **What `JSON.parse` accepts**: the texts of the wide grammar in which escapes write surrogates
in pairs. -/
theorem jsonParse_iff {s : List (BitVec 16)} {v : Value} :
    jsonParse s = .ok v ↔ ∃ d, IsText tokens d s ∧ NoLoneEscape d ∧ v = toValue strText d := by
  have hparse : jsonParse s = value (wire s).length (2 * (wire s).length + 2) (wire s) >>= fun p =>
      if ws p.2 = [] then .ok p.1 else .error (unexpectedToken (wire s).length (ws p.2)) := rfl
  constructor
  · intro h
    rw [hparse] at h
    cases hvalue : value (wire s).length (2 * (wire s).length + 2) (wire s) with
    | error e =>
      rw [hvalue] at h
      cases h
    | ok p =>
      obtain ⟨d, u₁, r, hlead, hspells, hpaired, rfl⟩ := (read _ _).1 s p hvalue
      rw [hvalue] at h
      obtain ⟨r', htrail, -, hr'⟩ := exists_ws r
      change (if ws (wire r) = [] then _ else _) = _ at h
      rw [hr'] at h
      split at h
      case isTrue hnil =>
        have hle := length_le_wire r'
        rw [hnil] at hle
        obtain rfl := List.eq_nil_of_length_eq_zero (Nat.le_zero.mp hle)
        exact ⟨d, .element hlead hspells htrail, hpaired, (Except.ok.inj h).symm⟩
      case isFalse => cases h
  · rintro ⟨d, htext, hpaired, rfl⟩
    have hle := length_le_wire s
    obtain ⟨x, hvalue, hx⟩ := readsPart (wire s).length htext Lib.JsonText.next_nil hpaired
      (2 * (wire s).length + 2) (by omega)
    rw [hparse, hvalue]
    exact if_pos hx

theorem jsonParse_error (s : List (BitVec 16)) :
    (∃ v, jsonParse s = .ok v) ∨ ∃ text, jsonParse s = .error (.message text) := by
  have hsettles := (settles (wire s).length (2 * (wire s).length + 2)).1 (wire s) (by omega)
  have hparse : jsonParse s = value (wire s).length (2 * (wire s).length + 2) (wire s) >>= fun p =>
      if ws p.2 = [] then .ok p.1 else .error (unexpectedToken (wire s).length (ws p.2)) := rfl
  cases hvalue : value (wire s).length (2 * (wire s).length + 2) (wire s) with
  | error e =>
    cases e with
    | steps => exact absurd hvalue hsettles.no_steps
    | message text => exact .inr ⟨text, by rw [hparse, hvalue]; rfl⟩
  | ok p =>
    by_cases hend : ws p.2 = []
    · exact .inl ⟨p.1, by rw [hparse, hvalue]; exact if_pos hend⟩
    · exact .inr ⟨_, by rw [hparse, hvalue]; exact if_neg hend⟩

/-! ## §4 Unpaired surrogates -/

theorem wellFormed_strText (ps : List Piece) : WellFormed (strText ps) := by
  unfold WellFormed strText
  rw [decode_encode]

theorem wellFormed_defineJsonProp {props : Props} {name : List (BitVec 16)} {v : Value}
    (hprops : PropsWellFormed props) (hname : WellFormed name) (hv : v.WellFormed) :
    PropsWellFormed (defineJsonProp props name v) := by
  induction props with
  | nil => exact ⟨hname, hv, trivial⟩
  | cons p props ih =>
    obtain ⟨key, old⟩ := p
    obtain ⟨hkey, hold, hrest⟩ := hprops
    unfold defineJsonProp
    split
    case isTrue => exact ⟨hkey, hv, hrest⟩
    case isFalse => exact ⟨hkey, hold, ih hrest⟩

mutual

theorem wellFormed_toValue : ∀ d : Document, (toValue strText d).WellFormed
  | .null => trivial
  | .bool _ => trivial
  | .number _ => trivial
  | .string ps => wellFormed_strText ps
  | .array ds => wellFormed_toValues ds
  | .object ms => wellFormed_toProps [] ms trivial

theorem wellFormed_toValues : ∀ ds : List Document, ItemsWellFormed (toValues strText ds)
  | [] => trivial
  | d :: ds => ⟨wellFormed_toValue d, wellFormed_toValues ds⟩

theorem wellFormed_toProps : ∀ (props : Props) (ms : List (List Piece × Document)),
    PropsWellFormed props → PropsWellFormed (toProps strText props ms)
  | _, [], h => h
  | _, (k, d) :: ms, h =>
    wellFormed_toProps _ ms
      (wellFormed_defineJsonProp h (wellFormed_strText k) (wellFormed_toValue d))

end

/-- Properties that are read, and those that the grammar denotes: the same, but for values with
unpaired surrogates. -/
inductive Alike : Props → Props → Prop
  | nil : Alike [] []
  | cons {key : List (BitVec 16)} {v v' : Value} {props props' : Props}
      (hv : v.WellFormed → v' = v) (h : Alike props props') :
      Alike ((key, v) :: props) ((key, v') :: props')

theorem Alike.define {props props' : Props} (h : Alike props props') (name : List (BitVec 16))
    {v v' : Value} (hv : v.WellFormed → v' = v) :
    Alike (defineJsonProp props name v) (defineJsonProp props' name v') := by
  induction h with
  | nil => exact .cons hv .nil
  | @cons key old old' props props' hold h ih =>
    unfold defineJsonProp
    by_cases hkey : key = name
    · rw [if_pos hkey, if_pos hkey]
      exact .cons hv h
    · rw [if_neg hkey, if_neg hkey]
      exact .cons hold ih

theorem Alike.eq {props props' : Props} (h : Alike props props') (hprops : PropsWellFormed props) :
    props' = props := by
  induction h with
  | nil => rfl
  | cons hv h ih =>
    obtain ⟨-, hval, hrest⟩ := hprops
    rw [hv hval, ih hrest]

def KeysWellFormed (props : Props) : Prop := ∀ p ∈ props, WellFormed p.1

theorem keysWellFormed {props : Props} (h : PropsWellFormed props) : KeysWellFormed props := by
  induction props with
  | nil =>
    intro p hp
    cases hp
  | cons q props ih =>
    obtain ⟨hkey, -, hrest⟩ := h
    intro p hp
    rcases List.mem_cons.mp hp with rfl | hp
    · exact hkey
    · exact ih hrest p hp

theorem keysWellFormed_of_define {props : Props} {name : List (BitVec 16)} {v : Value}
    (h : KeysWellFormed (defineJsonProp props name v)) : WellFormed name ∧ KeysWellFormed props := by
  induction props with
  | nil => exact ⟨h (name, v) List.mem_cons_self, fun p hp => by cases hp⟩
  | cons q props ih =>
    obtain ⟨key, old⟩ := q
    unfold defineJsonProp at h
    split at h
    case isTrue hkey =>
      have hwell : WellFormed key := h (key, v) List.mem_cons_self
      refine ⟨hkey ▸ hwell, ?_⟩
      intro p hp
      rcases List.mem_cons.mp hp with rfl | hp
      · exact hwell
      · exact h p (List.mem_cons_of_mem _ hp)
    case isFalse =>
      obtain ⟨hname, hprops⟩ := ih fun p hp => h p (List.mem_cons_of_mem _ hp)
      refine ⟨hname, ?_⟩
      intro p hp
      rcases List.mem_cons.mp hp with rfl | hp
      · exact h (key, old) List.mem_cons_self
      · exact hprops p hp

theorem keysWellFormed_of_toProps {ms : List (List Piece × Document)} {props : Props}
    (h : KeysWellFormed (toProps codes props ms)) : KeysWellFormed props := by
  induction ms generalizing props with
  | nil => exact h
  | cons m ms ih => exact (keysWellFormed_of_define (ih h)).2

mutual

theorem toValue_eq : ∀ d : Document, (toValue codes d).WellFormed → toValue strText d = toValue codes d
  | .null, _ => rfl
  | .bool _, _ => rfl
  | .number _, _ => rfl
  | .string _, h => congrArg Value.string h
  | .array ds, h => congrArg Value.array (toValues_eq ds h)
  | .object ms, h =>
    congrArg Value.object
      ((toProps_alike ms .nil (keysWellFormed h)).eq h)

theorem toValues_eq : ∀ ds : List Document, ItemsWellFormed (toValues codes ds) →
    toValues strText ds = toValues codes ds
  | [], _ => rfl
  | d :: ds, h => congrArg₂ List.cons (toValue_eq d h.1) (toValues_eq ds h.2)

theorem toProps_alike : ∀ (ms : List (List Piece × Document)) {props props' : Props},
    Alike props props' → KeysWellFormed (toProps codes props ms) →
    Alike (toProps codes props ms) (toProps strText props' ms)
  | [], _, _, h, _ => h
  | (k, d) :: ms, props, props', h, hkeys => by
    have hk : strText k = codes k := (keysWellFormed_of_define (keysWellFormed_of_toProps hkeys)).1
    have hdefine := h.define (codes k) (toValue_eq d)
    rw [toProps, toProps, hk]
    exact toProps_alike ms hdefine hkeys

end

/-- **The value that is read is the one denoted** exactly if no surrogate of it is unpaired. -/
theorem toValue_eq_denote {d : Document} :
    toValue strText d = denote d ↔ (denote d).WellFormed := by
  constructor
  · intro h
    rw [← h]
    exact wellFormed_toValue d
  · exact toValue_eq d

/-! ## §5 Agreement -/

/-- **`JSON.parse` agrees with ECMA-404** on exactly the strings of the condition. -/
theorem parsesAsGrammar_iff (s : List (BitVec 16)) : ParsesAsGrammar s ↔ Unaffected s := by
  constructor
  · rintro ⟨hparses, -⟩ d htext
    have hstandard : Standard d → NoLoneEscape d ∧ (denote d).WellFormed := by
      intro hd
      obtain ⟨d', htext', hpaired, heq⟩ :=
        jsonParse_iff.mp ((hparses (denote d)).mpr ⟨d, htext, hd, rfl⟩)
      obtain rfl := Lib.JsonText.isText_unique lawful_tokens htext htext'
      exact ⟨hpaired, toValue_eq_denote.mp heq.symm⟩
    refine ⟨⟨fun hd => (hstandard hd).1, ?_⟩, fun hd => (hstandard hd).2⟩
    intro hpaired
    obtain ⟨d', htext', hd, -⟩ := (hparses _).mp (jsonParse_iff.mpr ⟨d, htext, hpaired, rfl⟩)
    obtain rfl := Lib.JsonText.isText_unique lawful_tokens htext htext'
    exact hd
  · intro h
    have hparses : ∀ v, jsonParse s = .ok v ↔ Denotes s v := by
      intro v
      rw [jsonParse_iff]
      constructor
      · rintro ⟨d, htext, hpaired, rfl⟩
        obtain ⟨hiff, hwell⟩ := h d htext
        have hd := hiff.mpr hpaired
        exact ⟨d, htext, hd, (toValue_eq_denote.mpr (hwell hd)).symm⟩
      · rintro ⟨d, htext, hd, rfl⟩
        obtain ⟨hiff, hwell⟩ := h d htext
        exact ⟨d, htext, hiff.mp hd, (toValue_eq_denote.mpr (hwell hd)).symm⟩
    refine ⟨hparses, ?_⟩
    intro hnone
    rcases jsonParse_error s with ⟨v, hv⟩ | herror
    · exact absurd ⟨v, (hparses v).mp hv⟩ hnone
    · exact herror

def zeroOne : Numeral where
  minus := false
  whole := ['0', '1']
  frac := none
  exp := []
  exponent := 0
  whole_digits := ⟨by decide, List.all_eq_true.mp rfl⟩
  frac_digits c hc := by cases hc
  exp_part := .absent

/-- `JSON.parse("01")` is one. -/
theorem not_parsesAsGrammar_leading_zero : ¬ ParsesAsGrammar (units "01".toList) := by
  rintro ⟨hparses, -⟩
  have htext : IsText tokens (.number zeroOne) (units "01".toList) :=
    .element (Lib.JsonText.blank_refl _) .number (Lib.JsonText.blank_refl _)
  obtain ⟨d, htext', hd, -⟩ :=
    (hparses _).mp (jsonParse_iff.mpr ⟨.number zeroOne, htext, trivial, rfl⟩)
  obtain rfl := Lib.JsonText.isText_unique lawful_tokens htext htext'
  have hstandard : zeroOne.Standard := hd
  exact absurd (hstandard.no_leading_zero rfl) (by decide)

end V12.Json
