/-
V12.Lib.JsonText — the grammar of JSON texts, over any spelling of numbers and
strings.

A document keeps the numbers and strings that were written, not what they stand
for. `Spells` relates a document, and the parts of one, to the code units that
spell it and to what is left behind them.
-/
import Mathlib.Algebra.Ring.Nat
import Mathlib.Tactic.Common

namespace Lib.JsonText

/-! ## §1 Documents -/

abbrev Units := List (BitVec 16)

def unit (c : Char) : BitVec 16 := BitVec.ofNat 16 c.toNat

def units (t : List Char) : Units := t.map unit

inductive Doc (ν σ : Type) where
  | null
  | bool (b : Bool)
  | number (n : ν)
  | string (s : σ)
  | array (ds : List (Doc ν σ))
  | object (ms : List (σ × Doc ν σ))

/-- The parts of a document that the grammar names. -/
inductive Phrase (ν σ : Type) where
  | value (d : Doc ν σ)
  | element (d : Doc ν σ)
  | elements (ds : List (Doc ν σ))
  | member (k : σ) (d : Doc ν σ)
  | members (ms : List (σ × Doc ν σ))

/-- The spelling of numbers and strings. -/
structure Tokens (ν σ : Type) where
  number : ν → Units
  string : σ → Units

variable {ν σ : Type}
variable {us r : Units}

mutual

def Doc.All (num : ν → Prop) (str : σ → Prop) : Doc ν σ → Prop
  | .null | .bool _ => True
  | .number n => num n
  | .string s => str s
  | .array ds => AllElements num str ds
  | .object ms => AllMembers num str ms

def AllElements (num : ν → Prop) (str : σ → Prop) : List (Doc ν σ) → Prop
  | [] => True
  | d :: ds => d.All num str ∧ AllElements num str ds

def AllMembers (num : ν → Prop) (str : σ → Prop) : List (σ × Doc ν σ) → Prop
  | [] => True
  | (k, d) :: ms => str k ∧ d.All num str ∧ AllMembers num str ms

end

/-! ## §2 The grammar -/

def isBlank (u : BitVec 16) : Bool :=
  u = unit ' ' || u = unit '\t' || u = unit '\n' || u = unit '\r'

def Blank (us r : Units) : Prop := ∃ w, (∀ u ∈ w, isBlank u = true) ∧ us = w ++ r

def boolText (b : Bool) : List Char := if b then "true".toList else "false".toList

/-- **The grammar**: a part of a document, the units that begin with its spelling, and the units
left behind it. -/
inductive Spells (T : Tokens ν σ) : Phrase ν σ → Units → Units → Prop
  | null {r : Units} : Spells T (.value .null) (units "null".toList ++ r) r
  | bool {b : Bool} {r : Units} : Spells T (.value (.bool b)) (units (boolText b) ++ r) r
  | number {n : ν} {r : Units} : Spells T (.value (.number n)) (T.number n ++ r) r
  | string {s : σ} {r : Units} : Spells T (.value (.string s)) (T.string s ++ r) r
  | emptyArray {us r : Units} (h : Blank us (unit ']' :: r)) :
      Spells T (.value (.array [])) (unit '[' :: us) r
  | array {ds : List (Doc ν σ)} {us r : Units} (h : Spells T (.elements ds) us (unit ']' :: r)) :
      Spells T (.value (.array ds)) (unit '[' :: us) r
  | emptyObject {us r : Units} (h : Blank us (unit '\x7d' :: r)) :
      Spells T (.value (.object [])) (unit '\x7b' :: us) r
  | object {ms : List (σ × Doc ν σ)} {us r : Units}
      (h : Spells T (.members ms) us (unit '\x7d' :: r)) :
      Spells T (.value (.object ms)) (unit '\x7b' :: us) r
  | element {d : Doc ν σ} {us u₁ u₂ r : Units} (hlead : Blank us u₁)
      (h : Spells T (.value d) u₁ u₂) (htrail : Blank u₂ r) : Spells T (.element d) us r
  | lastElement {d : Doc ν σ} {us r : Units} (h : Spells T (.element d) us r) :
      Spells T (.elements [d]) us r
  | moreElements {d : Doc ν σ} {ds : List (Doc ν σ)} {us us' r : Units}
      (h : Spells T (.element d) us (unit ',' :: us')) (hrest : Spells T (.elements ds) us' r) :
      Spells T (.elements (d :: ds)) us r
  | member {k : σ} {d : Doc ν σ} {us u₁ u₂ r : Units} (hlead : Blank us (T.string k ++ u₁))
      (hcolon : Blank u₁ (unit ':' :: u₂)) (h : Spells T (.element d) u₂ r) :
      Spells T (.member k d) us r
  | lastMember {k : σ} {d : Doc ν σ} {us r : Units} (h : Spells T (.member k d) us r) :
      Spells T (.members [(k, d)]) us r
  | moreMembers {k : σ} {d : Doc ν σ} {ms : List (σ × Doc ν σ)} {us us' r : Units}
      (h : Spells T (.member k d) us (unit ',' :: us')) (hrest : Spells T (.members ms) us' r) :
      Spells T (.members ((k, d) :: ms)) us r

/-- **A JSON text** and its document. -/
def IsText (T : Tokens ν σ) (d : Doc ν σ) (us : Units) : Prop := Spells T (.element d) us []

/-! ## §3 What can follow -/

def isCloser (u : BitVec 16) : Bool := u = unit ',' || u = unit ']' || u = unit '\x7d'

def Next (p : BitVec 16 → Bool) (r : Units) : Prop := ∀ u ∈ r.head?, p u = true

def Follow (r : Units) : Prop := Next (fun u => isBlank u || isCloser u) r

def Phrase.Ends : Phrase ν σ → Units → Prop
  | .value _, r => Follow r
  | .element _, r => Next isCloser r
  | .elements _, r => r.head? = some (unit ']')
  | .member _ _, r => Next isCloser r
  | .members _, r => r.head? = some (unit '\x7d')

def startsNumber (u : BitVec 16) : Bool :=
  u = unit '-' || (48 ≤ u.toNat && u.toNat ≤ 57)

/-- Numbers and strings can be told from each other and from what follows them. -/
structure Tokens.Lawful (T : Tokens ν σ) : Prop where
  number_start : ∀ n, ∃ u t, T.number n = u :: t ∧ startsNumber u = true
  number_unique : ∀ n n' r r', Follow r → Follow r' → T.number n ++ r = T.number n' ++ r' →
    n = n' ∧ r = r'
  string_start : ∀ s, ∃ t, T.string s = unit '"' :: t
  string_unique : ∀ s s' r r', T.string s ++ r = T.string s' ++ r' → s = s' ∧ r = r'

theorem next_cons {p : BitVec 16 → Bool} {u : BitVec 16} {t : Units} (h : p u = true) :
    Next p (u :: t) := by
  intro v hv
  rw [List.head?_cons, Option.mem_def, Option.some.injEq] at hv
  rwa [← hv]

theorem next_nil {p : BitVec 16 → Bool} : Next p [] := by
  intro v hv
  cases hv

theorem follow_of_next_closer {r : Units} (h : Next isCloser r) : Follow r := by
  intro u hu
  rw [Bool.or_eq_true]
  exact .inr (h u hu)

theorem not_isBlank_of_isCloser {u : BitVec 16} (h : isCloser u = true) : isBlank u = false := by
  simp only [isCloser, Bool.or_eq_true, decide_eq_true_eq] at h
  rcases h with (rfl | rfl) | rfl <;> decide

/-! ## §4 White space -/

theorem blank_refl (r : Units) : Blank r r := ⟨[], by simp, rfl⟩

theorem follow_of_blank {us r : Units} (h : Blank us r) (hr : Next isCloser r) : Follow us := by
  obtain ⟨w, hw, rfl⟩ := h
  cases w with
  | nil => exact follow_of_next_closer hr
  | cons u w => exact next_cons (by rw [hw u List.mem_cons_self, Bool.true_or])

theorem Blank.unique {us r r' : Units} (h : Blank us r) (h' : Blank us r')
    (hr : Next (fun u => !isBlank u) r) (hr' : Next (fun u => !isBlank u) r') : r = r' := by
  have hdrop : ∀ {us r : Units}, Blank us r → Next (fun u => !isBlank u) r →
      us.dropWhile isBlank = r := by
    intro us r h hr
    obtain ⟨w, hw, rfl⟩ := h
    rw [List.dropWhile_append_of_pos hw]
    cases r with
    | nil => rfl
    | cons u r =>
      have hu := hr u rfl
      rw [Bool.not_eq_true'] at hu
      exact List.dropWhile_cons_of_neg (by rw [hu]; decide)
  rw [← hdrop h hr, ← hdrop h' hr']

theorem next_not_blank {u : BitVec 16} {t : Units} (h : isBlank u = false) :
    Next (fun u => !isBlank u) (u :: t) := next_cons (by rw [h]; rfl)

theorem next_not_blank_of_closer {r : Units} (h : Next isCloser r) :
    Next (fun u => !isBlank u) r := by
  intro u hu
  have hblank := not_isBlank_of_isCloser (h u hu)
  exact (congrArg (!·) hblank).trans rfl

theorem Blank.length_le {us r : Units} (h : Blank us r) : r.length ≤ us.length := by
  obtain ⟨w, -, rfl⟩ := h
  rw [List.length_append]
  exact Nat.le_add_left _ _

theorem Spells.length_le {T : Tokens ν σ} {p : Phrase ν σ} {us r : Units} (h : Spells T p us r) :
    r.length ≤ us.length := by
  induction h with
  | null | bool | number | string =>
    rw [List.length_append]
    exact Nat.le_add_left _ _
  | emptyArray hblank | emptyObject hblank =>
    have hle := hblank.length_le
    simp only [List.length_cons] at hle ⊢
    omega
  | array _ ih | object _ ih =>
    simp only [List.length_cons] at ih ⊢
    omega
  | element hlead _ htrail ih =>
    exact Nat.le_trans (Nat.le_trans htrail.length_le ih) hlead.length_le
  | lastElement _ ih | lastMember _ ih => exact ih
  | moreElements _ _ ih ihrest | moreMembers _ _ ih ihrest =>
    simp only [List.length_cons] at ih
    omega
  | member hlead hcolon _ ih =>
    have hlead := hlead.length_le
    have hcolon := hcolon.length_le
    simp only [List.length_cons, List.length_append] at hlead hcolon
    omega

/-! ## §5 What a part begins with -/

/-- What kind of value a document is. -/
inductive Shape where
  | null
  | bool (b : Bool)
  | number
  | string
  | array
  | object

def Doc.shape : Doc ν σ → Shape
  | .null => .null
  | .bool b => .bool b
  | .number _ => .number
  | .string _ => .string
  | .array _ => .array
  | .object _ => .object

def shapeAt (u : BitVec 16) : Option Shape :=
  if u = unit 'n' then some .null
  else if u = unit 't' then some (.bool true)
  else if u = unit 'f' then some (.bool false)
  else if u = unit '"' then some .string
  else if u = unit '[' then some .array
  else if u = unit '\x7b' then some .object
  else if startsNumber u then some .number
  else none

theorem shapeAt_of_startsNumber {u : BitVec 16} (h : startsNumber u = true) :
    shapeAt u = some .number := by
  have hne : ∀ c, startsNumber (unit c) = false → u ≠ unit c := by
    rintro c hc rfl
    rw [hc] at h
    cases h
  unfold shapeAt
  rw [if_neg (hne 'n' (by decide)), if_neg (hne 't' (by decide)), if_neg (hne 'f' (by decide)),
    if_neg (hne '"' (by decide)), if_neg (hne '[' (by decide)), if_neg (hne '\x7b' (by decide)),
    if_pos h]

theorem not_isBlank_of_shapeAt {u : BitVec 16} {k : Shape} (h : shapeAt u = some k) :
    isBlank u = false := by
  rw [Bool.eq_false_iff]
  intro hblank
  simp only [isBlank, Bool.or_eq_true, decide_eq_true_eq] at hblank
  rcases hblank with ((rfl | rfl) | rfl) | rfl <;> exact absurd h (by simp [shapeAt, unit, startsNumber])

section Unique

variable {T : Tokens ν σ}

theorem value_start (hT : T.Lawful) {p : Phrase ν σ} {us r : Units} (h : Spells T p us r) {d : Doc ν σ}
    (hp : p = .value d) : ∃ u t, us = u :: t ∧ shapeAt u = some d.shape := by
  cases h with
  | null =>
    cases hp
    exact ⟨_, _, rfl, rfl⟩
  | bool =>
    rename_i b
    cases hp
    cases b <;> exact ⟨_, _, rfl, rfl⟩
  | number =>
    rename_i n
    cases hp
    obtain ⟨u, t, hnumber, hu⟩ := hT.number_start n
    exact ⟨u, t ++ r, by rw [hnumber]; rfl, shapeAt_of_startsNumber hu⟩
  | string =>
    rename_i s
    cases hp
    obtain ⟨t, hstring⟩ := hT.string_start s
    exact ⟨_, t ++ r, by rw [hstring]; rfl, rfl⟩
  | emptyArray | array | emptyObject | object =>
    cases hp
    exact ⟨_, _, rfl, rfl⟩
  | element | lastElement | moreElements | member | lastMember | moreMembers => cases hp

theorem elements_start (hT : T.Lawful) {p : Phrase ν σ} {us r : Units} (h : Spells T p us r)
    (hp : (∃ d, p = .element d) ∨ ∃ ds, p = .elements ds) :
    ∃ u t k, Blank us (u :: t) ∧ shapeAt u = some k := by
  induction h with
  | element hlead h =>
    obtain ⟨u, t, rfl, hu⟩ := value_start hT h rfl
    exact ⟨u, t, _, hlead, hu⟩
  | lastElement _ ih | moreElements _ _ ih _ => exact ih (.inl ⟨_, rfl⟩)
  | _ => rcases hp with ⟨_, hp⟩ | ⟨_, hp⟩ <;> cases hp

theorem members_start (hT : T.Lawful) {p : Phrase ν σ} {us r : Units} (h : Spells T p us r)
    (hp : (∃ k d, p = .member k d) ∨ ∃ ms, p = .members ms) :
    ∃ t, Blank us (unit '"' :: t) := by
  induction h with
  | member hlead =>
    rename_i k d us u₁ u₂ r hcolon h ih
    obtain ⟨t, hstring⟩ := hT.string_start k
    rw [hstring] at hlead
    exact ⟨_, hlead⟩
  | lastMember _ ih | moreMembers _ _ ih _ => exact ih (.inl ⟨_, _, rfl⟩)
  | _ => rcases hp with ⟨_, _, hp⟩ | ⟨_, hp⟩ <;> cases hp

theorem array_inv {d : Doc ν σ} (h : Spells T (.value d) us r) (hd : d.shape = .array) :
    ∃ us', us = unit '[' :: us' ∧
      ((d = .array [] ∧ Blank us' (unit ']' :: r)) ∨
        ∃ ds, d = .array ds ∧ Spells T (.elements ds) us' (unit ']' :: r)) := by
  cases h with
  | emptyArray h => exact ⟨_, rfl, .inl ⟨rfl, h⟩⟩
  | array h => exact ⟨_, rfl, .inr ⟨_, rfl, h⟩⟩
  | _ => cases hd

theorem object_inv {d : Doc ν σ} (h : Spells T (.value d) us r) (hd : d.shape = .object) :
    ∃ us', us = unit '\x7b' :: us' ∧
      ((d = .object [] ∧ Blank us' (unit '\x7d' :: r)) ∨
        ∃ ms, d = .object ms ∧ Spells T (.members ms) us' (unit '\x7d' :: r)) := by
  cases h with
  | emptyObject h => exact ⟨_, rfl, .inl ⟨rfl, h⟩⟩
  | object h => exact ⟨_, rfl, .inr ⟨_, rfl, h⟩⟩
  | _ => cases hd

theorem shape_unique (hT : T.Lawful) {d d' : Doc ν σ} {r' : Units} (h : Spells T (.value d) us r)
    (h' : Spells T (.value d') us r') : d'.shape = d.shape := by
  obtain ⟨u, t, hus, hu⟩ := value_start hT h rfl
  obtain ⟨u', t', hus', hu'⟩ := value_start hT h' rfl
  obtain ⟨rfl, -⟩ := List.cons.inj (hus.symm.trans hus')
  exact Option.some.inj (hu'.symm.trans hu)

theorem not_blank_closer (hT : T.Lawful) {ds : List (Doc ν σ)} {us r r' : Units}
    (h : Blank us (unit ']' :: r)) : ¬ Spells T (.elements ds) us r' := by
  intro hspells
  obtain ⟨u, t, k, hblank, hu⟩ := elements_start hT hspells (.inr ⟨_, rfl⟩)
  have heq := h.unique hblank (next_cons (by decide))
    (next_not_blank (not_isBlank_of_shapeAt hu))
  obtain ⟨rfl, -⟩ := List.cons.inj heq
  exact absurd hu (by simp [shapeAt, unit, startsNumber])

theorem not_blank_brace (hT : T.Lawful) {ms : List (σ × Doc ν σ)} {r' : Units}
    (h : Blank us (unit '\x7d' :: r)) : ¬ Spells T (.members ms) us r' := by
  intro hspells
  obtain ⟨t, hblank⟩ := members_start hT hspells (.inr ⟨_, rfl⟩)
  have heq := h.unique hblank (next_cons (by decide)) (next_cons (by decide))
  exact absurd (List.cons.inj heq).1 (by decide)

/-- The grammar's name of a part. -/
inductive Part where
  | value
  | element
  | elements
  | member
  | members

def Phrase.part : Phrase ν σ → Part
  | .value _ => .value
  | .element _ => .element
  | .elements _ => .elements
  | .member _ _ => .member
  | .members _ => .members

theorem next_of_head {p : BitVec 16 → Bool} {u : BitVec 16} (h : r.head? = some u)
    (hu : p u = true) : Next p r := by
  intro v hv
  rw [h] at hv
  rwa [← Option.some.inj hv]

theorem value_of_part {p : Phrase ν σ} (h : p.part = .value) : ∃ d, p = .value d := by
  cases p with
  | value d => exact ⟨d, rfl⟩
  | _ => cases h

/-- **Units spell one part only, up to one place.** -/
theorem spells_unique (hT : T.Lawful) {p : Phrase ν σ} (h : Spells T p us r) :
    ∀ {p' : Phrase ν σ} {r' : Units}, Spells T p' us r' → p'.part = p.part → p.Ends r → p'.Ends r' →
      p = p' ∧ r = r' := by
  induction h with
  | null =>
    intro p' r' h' hpart hr hr'
    obtain ⟨d', rfl⟩ := value_of_part hpart
    have hshape := shape_unique hT .null h'
    generalize hus : units "null".toList ++ _ = us at h'
    cases h' with
    | null => exact ⟨rfl, List.append_cancel_left hus⟩
    | _ => cases hshape
  | bool =>
    intro p' r' h' hpart hr hr'
    obtain ⟨d', rfl⟩ := value_of_part hpart
    have hshape := shape_unique hT .bool h'
    generalize hus : units _ ++ _ = us at h'
    cases h' with
    | bool =>
      cases hshape
      exact ⟨rfl, List.append_cancel_left hus⟩
    | _ => cases hshape
  | number =>
    intro p' r' h' hpart hr hr'
    obtain ⟨d', rfl⟩ := value_of_part hpart
    have hshape := shape_unique hT .number h'
    generalize hus : T.number _ ++ _ = us at h'
    cases h' with
    | number =>
      obtain ⟨rfl, rfl⟩ := hT.number_unique _ _ _ _ hr hr' hus
      exact ⟨rfl, rfl⟩
    | _ => cases hshape
  | string =>
    intro p' r' h' hpart hr hr'
    obtain ⟨d', rfl⟩ := value_of_part hpart
    have hshape := shape_unique hT .string h'
    generalize hus : T.string _ ++ _ = us at h'
    cases h' with
    | string =>
      obtain ⟨rfl, rfl⟩ := hT.string_unique _ _ _ _ hus
      exact ⟨rfl, rfl⟩
    | _ => cases hshape
  | emptyArray hblank =>
    intro p' r' h' hpart hr hr'
    obtain ⟨d', rfl⟩ := value_of_part hpart
    obtain ⟨us', hus, h'⟩ := array_inv h' (shape_unique hT (.emptyArray hblank) h')
    obtain ⟨-, rfl⟩ := List.cons.inj hus
    rcases h' with ⟨rfl, hblank'⟩ | ⟨ds, rfl, helements⟩
    · have heq := hblank.unique hblank' (next_cons (by decide)) (next_cons (by decide))
      exact ⟨rfl, (List.cons.inj heq).2⟩
    · exact absurd helements (not_blank_closer hT hblank)
  | array helements ih =>
    intro p' r' h' hpart hr hr'
    obtain ⟨d', rfl⟩ := value_of_part hpart
    obtain ⟨us', hus, h'⟩ := array_inv h' (shape_unique hT (.array helements) h')
    obtain ⟨-, rfl⟩ := List.cons.inj hus
    rcases h' with ⟨rfl, hblank⟩ | ⟨ds, rfl, helements'⟩
    · exact absurd helements (not_blank_closer hT hblank)
    · obtain ⟨hds, heq⟩ := ih helements' rfl rfl rfl
      cases hds
      exact ⟨rfl, (List.cons.inj heq).2⟩
  | emptyObject hblank =>
    intro p' r' h' hpart hr hr'
    obtain ⟨d', rfl⟩ := value_of_part hpart
    obtain ⟨us', hus, h'⟩ := object_inv h' (shape_unique hT (.emptyObject hblank) h')
    obtain ⟨-, rfl⟩ := List.cons.inj hus
    rcases h' with ⟨rfl, hblank'⟩ | ⟨ms, rfl, hmembers⟩
    · have heq := hblank.unique hblank' (next_cons (by decide)) (next_cons (by decide))
      exact ⟨rfl, (List.cons.inj heq).2⟩
    · exact absurd hmembers (not_blank_brace hT hblank)
  | object hmembers ih =>
    intro p' r' h' hpart hr hr'
    obtain ⟨d', rfl⟩ := value_of_part hpart
    obtain ⟨us', hus, h'⟩ := object_inv h' (shape_unique hT (.object hmembers) h')
    obtain ⟨-, rfl⟩ := List.cons.inj hus
    rcases h' with ⟨rfl, hblank⟩ | ⟨ms, rfl, hmembers'⟩
    · exact absurd hmembers (not_blank_brace hT hblank)
    · obtain ⟨hms, heq⟩ := ih hmembers' rfl rfl rfl
      cases hms
      exact ⟨rfl, (List.cons.inj heq).2⟩
  | element hlead h htrail ih =>
    intro p' r' h' hpart hr hr'
    cases h' with
    | element hlead' h' htrail' =>
      obtain ⟨u, t, hus, hu⟩ := value_start hT h rfl
      obtain ⟨u', t', hus', hu'⟩ := value_start hT h' rfl
      have hnot := not_isBlank_of_shapeAt hu
      have hnot' := not_isBlank_of_shapeAt hu'
      obtain rfl := hlead.unique hlead' (hus ▸ next_not_blank hnot) (hus' ▸ next_not_blank hnot')
      obtain ⟨hd, rfl⟩ := ih h' rfl (follow_of_blank htrail hr) (follow_of_blank htrail' hr')
      cases hd
      exact ⟨rfl, htrail.unique htrail' (next_not_blank_of_closer hr) (next_not_blank_of_closer hr')⟩
    | _ => cases hpart
  | lastElement h ih =>
    intro p' r' h' hpart hr hr'
    have hnext := next_of_head (p := isCloser) hr (by decide)
    cases h' with
    | lastElement h' =>
      obtain ⟨hd, rfl⟩ := ih h' rfl hnext (next_of_head hr' (by decide))
      cases hd
      exact ⟨rfl, rfl⟩
    | moreElements h' hrest' =>
      obtain ⟨-, rfl⟩ := ih h' rfl hnext (next_cons (by decide))
      exact absurd (Option.some.inj hr) (by decide)
    | _ => cases hpart
  | moreElements h hrest ih ihrest =>
    intro p' r' h' hpart hr hr'
    cases h' with
    | lastElement h' =>
      obtain ⟨-, rfl⟩ := ih h' rfl (next_cons (by decide)) (next_of_head hr' (by decide))
      exact absurd (Option.some.inj hr') (by decide)
    | moreElements h' hrest' =>
      obtain ⟨hd, heq⟩ := ih h' rfl (next_cons (by decide)) (next_cons (by decide))
      cases hd
      obtain ⟨-, rfl⟩ := List.cons.inj heq
      obtain ⟨hds, rfl⟩ := ihrest hrest' rfl hr hr'
      cases hds
      exact ⟨rfl, rfl⟩
    | _ => cases hpart
  | member hlead hcolon h ih =>
    intro p' r' h' hpart hr hr'
    cases h' with
    | member hlead' hcolon' h' =>
      rename_i k d us u₁ u₂ r k' d' u₁' u₂'
      obtain ⟨t, hstring⟩ := hT.string_start k
      obtain ⟨t', hstring'⟩ := hT.string_start k'
      have heq := hlead.unique hlead' (by rw [hstring]; exact next_cons (by decide))
        (by rw [hstring']; exact next_cons (by decide))
      obtain ⟨rfl, rfl⟩ := hT.string_unique _ _ _ _ heq
      have hcolons := hcolon.unique hcolon' (next_cons (by decide)) (next_cons (by decide))
      obtain ⟨-, rfl⟩ := List.cons.inj hcolons
      obtain ⟨hd, rfl⟩ := ih h' rfl hr hr'
      cases hd
      exact ⟨rfl, rfl⟩
    | _ => cases hpart
  | lastMember h ih =>
    intro p' r' h' hpart hr hr'
    have hnext := next_of_head (p := isCloser) hr (by decide)
    cases h' with
    | lastMember h' =>
      obtain ⟨hd, rfl⟩ := ih h' rfl hnext (next_of_head hr' (by decide))
      cases hd
      exact ⟨rfl, rfl⟩
    | moreMembers h' hrest' =>
      obtain ⟨-, rfl⟩ := ih h' rfl hnext (next_cons (by decide))
      exact absurd (Option.some.inj hr) (by decide)
    | _ => cases hpart
  | moreMembers h hrest ih ihrest =>
    intro p' r' h' hpart hr hr'
    cases h' with
    | lastMember h' =>
      obtain ⟨-, rfl⟩ := ih h' rfl (next_cons (by decide)) (next_of_head hr' (by decide))
      exact absurd (Option.some.inj hr') (by decide)
    | moreMembers h' hrest' =>
      obtain ⟨hd, heq⟩ := ih h' rfl (next_cons (by decide)) (next_cons (by decide))
      cases hd
      obtain ⟨-, rfl⟩ := List.cons.inj heq
      obtain ⟨hms, rfl⟩ := ihrest hrest' rfl hr hr'
      cases hms
      exact ⟨rfl, rfl⟩
    | _ => cases hpart

/-- **A text spells one document only.** -/
theorem isText_unique (hT : T.Lawful) {d d' : Doc ν σ} (h : IsText T d us) (h' : IsText T d' us) :
    d = d' := by
  obtain ⟨hd, -⟩ := spells_unique hT h h' rfl next_nil next_nil
  cases hd
  rfl

end Unique

end Lib.JsonText
