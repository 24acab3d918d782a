/-
V12.Engine.JsonParseTheorems — what `JSON.parse` accepts, and what it makes of it.

The parser reads the wide grammar, but for texts in which an escape writes an
unpaired surrogate (`jsonParse_iff`). So it agrees with ECMA-404 on a text of
that grammar exactly if the text is outside ECMA-404 just when it is refused, and
no surrogate of its value is replaced.
-/
import V12.Engine.JsonStrings

namespace V12.Json

open Lib.JsonText (Units Doc Tokens IsText Spells Phrase unit units Blank isBlank isCloser Next Follow)
open Lib.Utf8 Lib.Utf16

/-! ## §1 Enough steps -/

/-- A reading that does not run out of steps, and takes something of `n` bytes. -/
structure Settles {α : Type} (n : Nat) (x : Reads (α × List Nat)) : Prop where
  no_steps : x ≠ .error .steps
  shorter : ∀ v r, x = .ok (v, r) → r.length < n

variable {α β : Type} {n m : Nat}
variable {len : Nat} {rest : List Nat}

theorem settles_message (text : String) : Settles n (.error (.message text) : Reads (α × List Nat)) where
  no_steps h := by cases h
  shorter v r h := by cases h

theorem settles_ok {v : α} {r : List Nat} (h : r.length < n) : Settles n (.ok (v, r)) where
  no_steps h := by cases h
  shorter v' r' heq := by
    obtain ⟨-, rfl⟩ := Prod.mk.inj (Except.ok.inj heq)
    exact h

theorem Settles.bind {x : Reads (α × List Nat)} {f : α × List Nat → Reads (β × List Nat)}
    (h : Settles m x) (hf : ∀ v r, r.length < m → Settles n (f (v, r))) : Settles n (x >>= f) := by
  cases x with
  | error e =>
    refine ⟨?_, fun v r heq => by cases heq⟩
    intro heq
    cases heq
    exact h.no_steps rfl
  | ok p => exact hf p.1 p.2 (h.shorter p.1 p.2 rfl)

theorem length_ws_le (rest : List Nat) : (ws rest).length ≤ rest.length :=
  (List.dropWhile_sublist isWs).length_le

theorem expect_cases (len b : Nat) (rest : List Nat) :
    (∃ x, rest = b :: x ∧ expect len b rest = .ok x) ∨
      ∃ text, expect len b rest = .error (.message text) := by
  unfold expect
  split
  case isTrue h =>
    cases rest with
    | nil => cases h
    | cons a x =>
      obtain rfl := Option.some.inj h
      exact .inl ⟨x, rfl, rfl⟩
  case isFalse => exact .inr ⟨_, rfl⟩

theorem expect_self (len b : Nat) (x : List Nat) : expect len b (b :: x) = .ok x := if_pos rfl

theorem settles_expect {b : Nat} {f : List Nat → Reads (α × List Nat)}
    (hf : ∀ x, rest.length = x.length + 1 → Settles n (f x)) :
    Settles n (expect len b rest >>= f) := by
  rcases expect_cases len b rest with ⟨x, rfl, hx⟩ | ⟨text, hx⟩
  · rw [hx]
    exact hf x rfl
  · rw [hx]
    exact settles_message text

theorem Settles.mono {x : Reads (α × List Nat)} (h : Settles m x) (hle : m ≤ n) : Settles n x where
  no_steps := h.no_steps
  shorter v r heq := Nat.lt_of_lt_of_le (h.shorter v r heq) hle

theorem settles_okOr {o : Option Char} {text : String} {x : List Nat} (h : x.length < n) :
    Settles n (okOr o text x) := by
  cases o with
  | none => exact settles_message text
  | some c => exact settles_ok h

theorem settles_unicodeEscape (rest : List Nat) : Settles rest.length (unicodeEscape rest) := by
  unfold unicodeEscape
  split
  case isTrue => exact settles_message _
  case isFalse hlong =>
    have hdrop : (rest.drop 4).length < rest.length := by
      rw [List.length_drop]
      omega
    split
    case h_1 => exact settles_message _
    case h_2 =>
      unfold reassemble
      split
      case h_1 =>
        refine settles_okOr ?_
        rw [List.length_drop]
        omega
      case h_2 => exact settles_okOr hdrop

theorem settles_stringLoop (len : Nat) {fuel : Nat} {out : List Char} (h : rest.length < fuel) :
    Settles rest.length (stringLoop len fuel out rest) := by
  induction fuel generalizing out rest with
  | zero => exact absurd h (Nat.not_lt_zero _)
  | succ fuel ih =>
    cases rest with
    | nil => exact settles_message _
    | cons b rest =>
      have hnext : ∀ {out : List Char} {x : List Nat}, x.length < (b :: rest).length →
          Settles (b :: rest).length (stringLoop len fuel out x) := by
        intro out x hx
        have hfuel : x.length < fuel := Nat.lt_of_lt_of_le hx (Nat.le_of_lt_succ h)
        exact (ih hfuel).mono (Nat.le_of_lt hx)
      rw [stringLoop.eq_def]
      dsimp only
      split
      case isTrue => exact settles_ok (Nat.lt_succ_self _)
      case isFalse =>
        split
        case isTrue =>
          cases rest with
          | nil => exact settles_message _
          | cons esc rest =>
            have hlength : (b :: esc :: rest).length = rest.length + 2 := rfl
            dsimp only
            split
            case isTrue =>
              have hescape := settles_unicodeEscape rest
              cases hread : unicodeEscape rest with
              | ok p =>
                have hshort := hescape.shorter p.1 p.2 hread
                exact hnext (by omega)
              | error e =>
                cases e with
                | steps => exact absurd hread hescape.no_steps
                | message text => exact settles_message text
            case isFalse =>
              split
              case h_1 => exact hnext (by omega)
              case h_2 => exact settles_message _
        case isFalse =>
          split
          case h_1 _ c t _ =>
            split
            case isTrue => exact settles_message _
            case isFalse =>
              have hpos := size_pos c
              refine hnext ?_
              rw [List.length_drop]
              have hlength : (b :: rest).length = rest.length + 1 := rfl
              omega
          case h_2 => exact settles_message _

theorem settles_string (len : Nat) (rest : List Nat) : Settles rest.length (string len rest) := by
  refine settles_expect fun x hx => ?_
  exact (settles_stringLoop len (Nat.lt_succ_self _)).mono (by omega)

theorem settles_literal (len : Nat) {word : List Char} (hword : word ≠ []) (v : Value)
    (rest : List Nat) : Settles rest.length (literal len word v rest) := by
  unfold literal
  split
  case isTrue hbegin =>
    obtain ⟨c, t, rfl⟩ := List.exists_cons_of_ne_nil hword
    have hle := hbegin.length_le
    have hpos := size_pos c
    rw [length_bytes_cons] at hle
    refine settles_ok ?_
    rw [List.length_drop, length_bytes_cons]
    omega
  case isFalse => exact settles_message _

theorem settles_number (rest : List Nat) : Settles rest.length (number rest) := by
  unfold number
  dsimp only
  generalize hsign : (if rest.head? = some (byte '-') then rest.tail else rest) = y
  have hle : y.length ≤ rest.length := by
    rw [← hsign]
    split
    case isTrue =>
      rw [List.length_tail]
      exact Nat.sub_le _ _
    case isFalse => exact Nat.le_refl _
  split
  case isTrue => exact settles_message _
  case isFalse hlength =>
    have hbehind := ((behind_fraction (y.dropWhile asciiDigit)).trans (behind_exponent _)).length_le
    have hdigits := (behind_digits y).length_le
    generalize skipExponent (skipFraction (y.dropWhile asciiDigit)) = behind at hbehind ⊢
    have hshort : behind.length < rest.length := by omega
    split
    case h_1 => exact settles_message _
    case h_2 =>
      split
      case h_1 => exact settles_message _
      case h_2 =>
        split
        case isTrue => exact settles_ok hshort
        case isFalse => exact settles_ok hshort

theorem settles_object {loop : Props → List Nat → Reads (Value × List Nat)}
    (hloop : ∀ x, x.length < rest.length → Settles rest.length (loop [] x)) :
    Settles rest.length (object loop len rest) := by
  refine settles_expect fun x hx => ?_
  have hws := length_ws_le x
  dsimp only
  split
  case isTrue =>
    refine settles_ok ?_
    rw [List.length_tail]
    omega
  case isFalse => exact hloop _ (by omega)

theorem settles_array {loop : List Value → List Nat → Reads (Value × List Nat)}
    (hloop : ∀ x, x.length < rest.length → Settles rest.length (loop [] x)) :
    Settles rest.length (array loop len rest) := by
  refine settles_expect fun x hx => ?_
  have hws := length_ws_le x
  dsimp only
  split
  case isTrue =>
    refine settles_ok ?_
    rw [List.length_tail]
    omega
  case isFalse => exact hloop _ (by omega)

-- The equations are made here, ahead of the proofs below that all ask for them.
attribute [local simp] value elements members

/-- **There are enough steps**, two for each byte. -/
theorem settles (len fuel : Nat) :
    (∀ rest : List Nat, 2 * rest.length + 1 ≤ fuel → Settles rest.length (value len fuel rest)) ∧
      (∀ (props : Props) (rest : List Nat), 2 * rest.length + 1 ≤ fuel →
        Settles rest.length (members len fuel props rest)) ∧
      ∀ (items : List Value) (rest : List Nat), 2 * rest.length + 2 ≤ fuel →
        Settles rest.length (elements len fuel items rest) := by
  induction fuel with
  | zero =>
    refine ⟨fun rest h => ?_, fun props rest h => ?_, fun items rest h => ?_⟩ <;> omega
  | succ fuel ih =>
    obtain ⟨hvalue, hmembers, helements⟩ := ih
    refine ⟨fun rest h => ?_, fun props rest h => ?_, fun items rest h => ?_⟩
    · have hws := length_ws_le rest
      refine Settles.mono ?_ hws
      rw [value]
      dsimp only
      generalize ws rest = x at hws
      split
      case h_1 => exact settles_message _
      case h_2 c hc =>
        split
        case isTrue =>
          exact settles_object fun y hy => (hmembers [] y (by omega)).mono (by omega)
        case isFalse =>
        split
        case isTrue =>
          exact settles_array fun y hy => (helements [] y (by omega)).mono (by omega)
        case isFalse =>
        split
        case isTrue => exact (settles_string len x).bind fun v r hr => settles_ok hr
        case isFalse =>
        split
        case isTrue => exact settles_literal len (by decide) _ x
        case isFalse =>
        split
        case isTrue => exact settles_literal len (by decide) _ x
        case isFalse =>
        split
        case isTrue => exact settles_literal len (by decide) _ x
        case isFalse =>
        split
        case isTrue => exact settles_number x
        case isFalse => exact settles_message _
    · rw [members]
      have hws := length_ws_le rest
      refine (settles_string len (ws rest)).bind fun key r hr => ?_
      have hws' := length_ws_le r
      refine settles_expect fun x hx => ?_
      refine (hvalue x (by omega)).bind fun v y hy => ?_
      have hws'' := length_ws_le y
      dsimp only
      split
      case isTrue =>
        have htail : (ws y).tail.length ≤ (ws y).length := by
          rw [List.length_tail]
          exact Nat.sub_le _ _
        exact (hmembers _ _ (by omega)).mono (by omega)
      case isFalse =>
        split
        case isTrue =>
          refine settles_ok ?_
          rw [List.length_tail]
          omega
        case isFalse => exact settles_message _
    · rw [elements]
      refine (hvalue rest (by omega)).bind fun v y hy => ?_
      have hws := length_ws_le y
      dsimp only
      split
      case isTrue hcomma =>
        have htail : (ws y).tail.length ≤ (ws y).length := by
          rw [List.length_tail]
          exact Nat.sub_le _ _
        exact (helements _ _ (by omega)).mono (by omega)
      case isFalse =>
        split
        case isTrue =>
          refine settles_ok ?_
          rw [List.length_tail]
          omega
        case isFalse => exact settles_message _

/-! ## §2 What a value begins with -/

theorem ws_ws (x : List Nat) : ws (ws x) = ws x := List.dropWhile_idempotent isWs x

theorem members_ws (len fuel : Nat) (props : Props) (x : List Nat) :
    members len fuel props (ws x) = members len fuel props x := by
  cases fuel with
  | zero => rfl
  | succ fuel => rw [members, members, ws_ws]

theorem value_ws (len fuel : Nat) (x : List Nat) : value len fuel (ws x) = value len fuel x := by
  cases fuel with
  | zero => rfl
  | succ fuel => rw [value, value, ws_ws]

theorem elements_ws (len fuel : Nat) (items : List Value) (x : List Nat) :
    elements len fuel items (ws x) = elements len fuel items x := by
  cases fuel with
  | zero => rfl
  | succ fuel => rw [elements, elements, value_ws]

section Heads

variable {len fuel : Nat} {x y : List Nat}

theorem value_brace (h : ws x = byte '\x7b' :: y) :
    value len (fuel + 1) x = if (ws y).head? = some (byte '\x7d') then .ok (.object [], (ws y).tail)
      else members len fuel [] y := by
  rw [← members_ws, value]
  dsimp only
  rw [h]
  rfl

theorem value_bracket (h : ws x = byte '[' :: y) :
    value len (fuel + 1) x = if (ws y).head? = some (byte ']') then .ok (.array [], (ws y).tail)
      else elements len fuel [] y := by
  rw [← elements_ws, value]
  dsimp only
  rw [h]
  rfl

theorem value_quote (h : ws x = byte '"' :: y) :
    value len (fuel + 1) x =
      (string len (byte '"' :: y) >>= fun p => .ok (.string (encode p.1), p.2)) := by
  rw [value]
  dsimp only
  rw [h]
  rfl

theorem value_true (h : ws x = byte 't' :: y) :
    value len (fuel + 1) x = literal len "true".toList (.bool true) (byte 't' :: y) := by
  rw [value]
  dsimp only
  rw [h]
  rfl

theorem value_false (h : ws x = byte 'f' :: y) :
    value len (fuel + 1) x = literal len "false".toList (.bool false) (byte 'f' :: y) := by
  rw [value]
  dsimp only
  rw [h]
  rfl

theorem value_null (h : ws x = byte 'n' :: y) :
    value len (fuel + 1) x = literal len "null".toList .null (byte 'n' :: y) := by
  rw [value]
  dsimp only
  rw [h]
  rfl

theorem value_number {b : Nat} (hb : b = byte '-' ∨ asciiDigit b = true) (h : ws x = b :: y) :
    value len (fuel + 1) x = number (b :: y) := by
  have hne : ∀ c, byte c ≠ byte '-' → asciiDigit (byte c) = false → b ≠ byte c := by
    rintro c hminus hdigit rfl
    rcases hb with hb | hb
    · exact hminus hb
    · rw [hdigit] at hb
      cases hb
  rw [value]
  dsimp only
  rw [h]
  dsimp only [List.head?_cons]
  rw [if_neg (hne '\x7b' (by decide) (by decide)), if_neg (hne '[' (by decide) (by decide)),
    if_neg (hne '"' (by decide) (by decide)), if_neg (hne 't' (by decide) (by decide)),
    if_neg (hne 'f' (by decide) (by decide)), if_neg (hne 'n' (by decide) (by decide)), if_pos hb]

/-- **What a value begins with**, if one is read. -/
theorem value_cases {p : Value × List Nat} (h : value len (fuel + 1) x = .ok p) :
    ∃ b y, ws x = b :: y ∧ (b = byte '\x7b' ∨ b = byte '[' ∨ b = byte '"' ∨ b = byte 't' ∨
      b = byte 'f' ∨ b = byte 'n' ∨ b = byte '-' ∨ asciiDigit b = true) := by
  rw [value] at h
  dsimp only at h
  cases hws : ws x with
  | nil =>
    rw [hws] at h
    cases h
  | cons b y =>
    refine ⟨b, y, rfl, ?_⟩
    rw [hws] at h
    by_contra hnone
    simp only [not_or] at hnone
    obtain ⟨h₁, h₂, h₃, h₄, h₅, h₆, h₇, h₈⟩ := hnone
    dsimp only [List.head?_cons] at h
    rw [if_neg h₁, if_neg h₂, if_neg h₃, if_neg h₄, if_neg h₅, if_neg h₆,
      if_neg (not_or.mpr ⟨h₇, h₈⟩)] at h
    cases h

end Heads

theorem literal_append (len : Nat) (word : List Char) (v : Value) (x : List Nat) :
    literal len word v (bytes word ++ x) = .ok (v, x) := by
  unfold literal
  rw [if_pos (List.prefix_append _ _), List.drop_left]

theorem exists_literal {word : List Char} {v v' : Value} {x : List Nat}
    (h : literal len word v rest = .ok (v', x)) : rest = bytes word ++ x ∧ v' = v := by
  unfold literal at h
  split at h
  case isTrue hbegin =>
    obtain ⟨y, rfl⟩ := hbegin
    obtain ⟨rfl, hx⟩ := Prod.mk.inj (Except.ok.inj h)
    rw [List.drop_left] at hx
    exact ⟨by rw [hx], rfl⟩
  case isFalse => cases h

/-! ## §3 Loops -/

section Loops

variable {len fuel : Nat} {x y z w : List Nat} {items : List Value} {props : Props} {v : Value}
  {key : List Char}

theorem elements_comma (hvalue : value len fuel x = .ok (v, y)) (hws : ws y = byte ',' :: z) :
    elements len (fuel + 1) items x = elements len fuel (items ++ [v]) z := by
  rw [elements, hvalue]
  dsimp only [bind, Except.bind]
  rw [hws]
  rfl

theorem elements_end (hvalue : value len fuel x = .ok (v, y)) (hws : ws y = byte ']' :: z) :
    elements len (fuel + 1) items x = .ok (.array (items ++ [v]), z) := by
  rw [elements, hvalue]
  dsimp only [bind, Except.bind]
  rw [hws]
  rfl

/-- A member is read: a key, and a value behind a colon. -/
structure ReadsMember (len fuel : Nat) (x : List Nat) (key : List Char) (v : Value) (w : List Nat) :
    Prop where
  read : ∃ y z, string len (ws x) = .ok (key, y) ∧ ws y = byte ':' :: z ∧
    value len fuel z = .ok (v, w)

theorem members_comma (hmember : ReadsMember len fuel x key v w) (hws : ws w = byte ',' :: z) :
    members len (fuel + 1) props x = members len fuel (defineJsonProp props (encode key) v) z := by
  obtain ⟨y, t, hkey, hcolon, hvalue⟩ := hmember.read
  rw [members, hkey]
  dsimp only [bind, Except.bind]
  rw [hcolon, expect_self]
  dsimp only
  rw [hvalue]
  dsimp only
  rw [hws]
  rfl

theorem members_end (hmember : ReadsMember len fuel x key v w) (hws : ws w = byte '\x7d' :: z) :
    members len (fuel + 1) props x = .ok (.object (defineJsonProp props (encode key) v), z) := by
  obtain ⟨y, t, hkey, hcolon, hvalue⟩ := hmember.read
  rw [members, hkey]
  dsimp only [bind, Except.bind]
  rw [hcolon, expect_self]
  dsimp only
  rw [hvalue]
  dsimp only
  rw [hws]
  rfl

theorem elements_cases {p : Value × List Nat} (h : elements len (fuel + 1) items x = .ok p) :
    ∃ v y z, value len fuel x = .ok (v, y) ∧
      ((ws y = byte ',' :: z ∧ elements len fuel (items ++ [v]) z = .ok p) ∨
        (ws y = byte ']' :: z ∧ p = (.array (items ++ [v]), z))) := by
  rw [elements] at h
  cases hvalue : value len fuel x with
  | error e =>
    rw [hvalue] at h
    cases h
  | ok q =>
    obtain ⟨v, y⟩ := q
    rw [hvalue] at h
    dsimp only [bind, Except.bind] at h
    cases hws : ws y with
    | nil =>
      rw [hws] at h
      cases h
    | cons b z =>
      refine ⟨v, y, z, rfl, ?_⟩
      rw [hws] at h
      split at h
      case isTrue hb =>
        obtain rfl := Option.some.inj hb
        exact .inl ⟨hws, h⟩
      case isFalse =>
        split at h
        case isTrue hb =>
          obtain rfl := Option.some.inj hb
          exact .inr ⟨hws, (Except.ok.inj h).symm⟩
        case isFalse => cases h

theorem members_cases {p : Value × List Nat} (h : members len (fuel + 1) props x = .ok p) :
    ∃ key v w z, ReadsMember len fuel x key v w ∧
      ((ws w = byte ',' :: z ∧
          members len fuel (defineJsonProp props (encode key) v) z = .ok p) ∨
        (ws w = byte '\x7d' :: z ∧ p = (.object (defineJsonProp props (encode key) v), z))) := by
  rw [members] at h
  cases hkey : string len (ws x) with
  | error e =>
    rw [hkey] at h
    cases h
  | ok q =>
    obtain ⟨key, y⟩ := q
    rw [hkey] at h
    dsimp only [bind, Except.bind] at h
    rcases expect_cases len (byte ':') (ws y) with ⟨t, hcolon, hexpect⟩ | ⟨text, hexpect⟩
    · rw [hexpect] at h
      dsimp only at h
      cases hvalue : value len fuel t with
      | error e =>
        rw [hvalue] at h
        cases h
      | ok q =>
        obtain ⟨v, w⟩ := q
        rw [hvalue] at h
        dsimp only at h
        cases hws : ws w with
        | nil =>
          rw [hws] at h
          cases h
        | cons b z =>
          refine ⟨key, v, w, z, ⟨y, t, hkey, hcolon, hvalue⟩, ?_⟩
          rw [hws] at h
          split at h
          case isTrue hb =>
            obtain rfl := Option.some.inj hb
            exact .inl ⟨hws, h⟩
          case isFalse =>
            split at h
            case isTrue hb =>
              obtain rfl := Option.some.inj hb
              exact .inr ⟨hws, (Except.ok.inj h).symm⟩
            case isFalse => cases h
    · rw [hexpect] at h
      cases h

end Loops

end V12.Json
