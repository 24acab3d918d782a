/-
V12.Interp.Equality — `strict_equals` and `loose_equals` of
`v12-interp/src/ops.rs`.

Values are words, the texts and the integers behind them are the heap's. What
ECMAScript defines is stated on the values they denote. `equality_iff`: the two
agree but for big integers, symbols, and strings that `string_to_number`
misreads.
-/
import V12.Interp.Bitwise
import V12.Interp.StringNumberTheorems

namespace V12.Interp

open V12.Heap V12.Heap.JsValue Lib.Binary64

/-! ## §1 The code -/

/-- What strings and big integers hold. -/
structure Contents where
  text : Nat → List (BitVec 16)
  bigint : Nat → Int

namespace Contents

variable (c : Contents)

/-- `to_number`. -/
def toNumber (v : JsValue) : BitVec 64 :=
  match numOf v with
  | some n => n
  | none =>
    match v with
    | .bool b => ofNat b.toNat
    | .null => ofNat 0
    | .string h => stringToNumber (c.text h)
    | _ => nan

/-- `strict_equals`. -/
def strictEquals (a b : JsValue) : Bool :=
  match numOf a, numOf b with
  | some x, some y => eq x y
  | _, _ =>
    match a, b with
    | .string x, .string y => c.text x = c.text y
    | .bool x, .bool y => x = y
    | .bigint x, .bigint y => x = y
    | .symbol x, .symbol y => x = y
    | .object x, .object y => x = y
    | .undefined, .undefined | .null, .null => true
    | _, _ => false

def isNullish : JsValue → Bool
  | .undefined | .null => true
  | _ => false

def isBoolean : JsValue → Bool
  | .bool _ => true
  | _ => false

/-- The body of `loose_equals`, over its recursive call. -/
def looseStep (again : JsValue → JsValue → Bool) (a b : JsValue) : Bool :=
  if isNullish a then isNullish b
  else if isNullish b then false
  else if isBoolean a || isBoolean b then
    again (fromF64 (c.toNumber a)) (fromF64 (c.toNumber b))
  else
    match numOf a, numOf b with
    | some x, some y => eq x y
    | some x, none =>
      match b with
      | .string _ => eq x (c.toNumber b)
      | _ => false
    | none, some y =>
      match a with
      | .string _ => eq y (c.toNumber a)
      | _ => false
    | none, none =>
      match a, b with
      | .string x, .string y => c.text x = c.text y
      | .object _, .object _ => c.strictEquals a b
      | _, _ => false

/-- `loose_equals`: after one call again there is no boolean left. -/
def looseEquals (a b : JsValue) : Bool := c.looseStep (c.looseStep fun _ _ => false) a b

end Contents

/-! ## §2 What ECMAScript defines -/

/-- The language values that are no objects. -/
inductive EsValue where
  | undefined
  | null
  | bool (b : Bool)
  | number (x : BitVec 64)
  | string (t : List (BitVec 16))
  | symbol (h : Nat)
  | bigint (n : Int)

/-- The value a word stands for. -/
inductive Denotes (c : Contents) : JsValue → EsValue → Prop
  | undefined : Denotes c .undefined .undefined
  | null : Denotes c .null .null
  | bool (b : Bool) : Denotes c (.bool b) (.bool b)
  | number {v : JsValue} {x : BitVec 64} (h : numOf v = some x) : Denotes c v (.number x)
  | string (h : Nat) : Denotes c (.string h) (.string (c.text h))
  | symbol (h : Nat) : Denotes c (.symbol h) (.symbol h)
  | bigint (h : Nat) : Denotes c (.bigint h) (.bigint (c.bigint h))

def isEsWs (u : BitVec 16) : Bool :=
  let n := u.toNat
  (9 ≤ n && n ≤ 13) || n == 0x20 || n == 0xA0 || n == 0x1680 || (0x2000 ≤ n && n ≤ 0x200A) ||
    n == 0x2028 || n == 0x2029 || n == 0x202F || n == 0x205F || n == 0x3000 || n == 0xFEFF

/-- `x` is equal to the number of the string. -/
def EqualsNumber (x : BitVec 64) (t : List (BitVec 16)) : Prop :=
  ∃ v, StringNumericLiteral isEsWs t v ∧ eq x v = true

/-- `StringIntegerLiteral`, with its integer. -/
inductive StringIntegerLiteral : List (BitVec 16) → Int → Prop
  | blank {s : List (BitVec 16)} (h : ∀ u ∈ s, isEsWs u = true) : StringIntegerLiteral s 0
  | unsigned {s : List (BitVec 16)} {t : List Char} (hs : Surrounded isEsWs s t)
      (ht : Digits 10 t) : StringIntegerLiteral s (digitsValue 10 t)
  | plus {s : List (BitVec 16)} {t : List Char} (hs : Surrounded isEsWs s ('+' :: t))
      (ht : Digits 10 t) : StringIntegerLiteral s (digitsValue 10 t)
  | minus {s : List (BitVec 16)} {t : List Char} (hs : Surrounded isEsWs s ('-' :: t))
      (ht : Digits 10 t) : StringIntegerLiteral s (-(digitsValue 10 t : Int))
  | radix {s : List (BitVec 16)} {t ds : List Char} {radix : Nat} (hs : Surrounded isEsWs s t)
      (ht : NonDecimalIntegerLiteral t radix ds) : StringIntegerLiteral s (digitsValue radix ds)

/-- `IsLooselyEqual`, when no operand is a boolean. -/
def LooselyCore : EsValue → EsValue → Prop
  | .undefined, .undefined | .null, .null | .undefined, .null | .null, .undefined => True
  | .number x, .number y => eq x y = true
  | .string s, .string t => s = t
  | .symbol h, .symbol k => h = k
  | .bigint m, .bigint n => m = n
  | .number x, .string t | .string t, .number x => EqualsNumber x t
  | .bigint m, .string t | .string t, .bigint m => StringIntegerLiteral t m
  | .bigint m, .number x | .number x, .bigint m => IsFinite x ∧ value x = m
  | _, _ => False

/-- `IsLooselyEqual`: a boolean becomes a number. -/
def IsLooselyEqual : EsValue → EsValue → Prop
  | .bool b, .bool b' => b = b'
  | .bool b, y => LooselyCore (.number (ofNat b.toNat)) y
  | x, .bool b => LooselyCore x (.number (ofNat b.toNat))
  | x, y => LooselyCore x y

/-! ## §3 The property and its condition -/

/-- `loose_equals` of two values is ECMAScript's, symmetric, and covers strict equality. -/
structure LooseHeld (c : Contents) (a b : JsValue) (x y : EsValue) : Prop where
  follows : c.looseEquals a b = true ↔ IsLooselyEqual x y
  symmetric : c.looseEquals a b = c.looseEquals b a
  strict : c.strictEquals a b = true → c.looseEquals a b = true
  null : x = .null → (c.looseEquals a b = true ↔ y = .undefined ∨ y = .null)
  nan : ∀ n, x = .number n → IsNaN n → c.looseEquals a b = false

/-- `loose_equals` of values that are no objects, and `strict_equals` of objects. -/
def EqualityHeld (c : Contents) (a b : JsValue) : Prop :=
  (∀ x y, Denotes c a x → Denotes c b y → LooseHeld c a b x y) ∧
    ∀ h k, a = .object h → b = .object k → (c.strictEquals a b = true ↔ h = k)

/-- The string is no number for the code that it is for ECMAScript, or the other way round. -/
def MisreadAs (x : BitVec 64) (t : List (BitVec 16)) : Prop :=
  ¬ (eq x (stringToNumber t) = true ↔ EqualsNumber x t)

/-- The pairs that are missed: a symbol and itself, a big integer and what is equal to it, a number
and a string that is misread as it. -/
def Missed : EsValue → EsValue → Prop
  | .symbol h, .symbol k => h = k
  | .bigint m, .bigint n => m = n
  | .bigint m, .number x | .number x, .bigint m => IsFinite x ∧ value x = m
  | .bigint m, .bool b | .bool b, .bigint m => m = b.toNat
  | .bigint m, .string t | .string t, .bigint m => StringIntegerLiteral t m
  | .number x, .string t | .string t, .number x => MisreadAs x t
  | .bool b, .string t | .string t, .bool b => MisreadAs (ofNat b.toNat) t
  | _, _ => False

/-! ## §4 Numbers in words -/

theorem eq_comm_bool (x y : BitVec 64) : eq x y = eq y x := by
  unfold eq
  refine decide_eq_decide.mpr ⟨?_, ?_⟩
  · rintro ⟨hx, hy, h⟩
    exact ⟨hy, hx, h.imp Eq.symm And.symm⟩
  · rintro ⟨hx, hy, h⟩
    exact ⟨hy, hx, h.imp Eq.symm And.symm⟩

theorem eq_of_isNaN {x : BitVec 64} (h : IsNaN x) (y : BitVec 64) : eq x y = false :=
  decide_eq_false fun heq => heq.1 h

theorem isNaN_of_not_isRaw {x : BitVec 64} (h : ¬ IsRaw x) : IsNaN x := by
  have heq : x &&& BOX_MASK = BOX_MASK := not_not.mp h
  have hle : BOX_MASK.toNat ≤ x.toNat := by
    rw [← heq, BitVec.toNat_and]
    exact Nat.and_le_left
  have hmask : BOX_MASK.toNat = 2 ^ 63 + 4095 * 2 ^ 51 := by decide
  have hlt := x.isLt
  rw [IsNaN, exponent, fraction]
  omega

theorem numOf_fromF64 (x : BitVec 64) :
    ∃ y, numOf (fromF64 x) = some y ∧ ∀ z, eq y z = eq x z := by
  by_cases h : IsRaw x
  · refine ⟨x, ?_, fun z => rfl⟩
    rw [fromF64_of_isRaw h]
    rfl
  · have hbox : fromF64 x = .double QUIET_NAN_BITS := if_pos (not_not.mp h)
    refine ⟨QUIET_NAN_BITS, by rw [hbox]; rfl, fun z => ?_⟩
    rw [eq_of_isNaN (isNaN_of_not_isRaw h), eq_of_isNaN (by decide)]

theorem numOf_cases {v : JsValue} {x : BitVec 64} (h : numOf v = some x) :
    (∃ n, v = .smi n) ∨ ∃ d, v = .double d := by
  cases v <;> first | exact .inl ⟨_, rfl⟩ | exact .inr ⟨_, rfl⟩ | cases h

namespace Contents

variable {c : Contents} {a b : JsValue} {x y : BitVec 64}

theorem toNumber_of_numOf (h : numOf a = some x) : c.toNumber a = x := by
  unfold toNumber
  rw [h]

theorem isNullish_of_numOf (h : numOf a = some x) : isNullish a = false ∧ isBoolean a = false := by
  rcases numOf_cases h with ⟨n, rfl⟩ | ⟨d, rfl⟩ <;> exact ⟨rfl, rfl⟩

theorem looseStep_numbers (again : JsValue → JsValue → Bool) (ha : numOf a = some x)
    (hb : numOf b = some y) : c.looseStep again a b = eq x y := by
  obtain ⟨hna, hba⟩ := isNullish_of_numOf ha
  obtain ⟨hnb, hbb⟩ := isNullish_of_numOf hb
  simp [looseStep, hna, hnb, hba, hbb, ha, hb]

theorem looseStep_boolean (again : JsValue → JsValue → Bool) (hna : isNullish a = false)
    (hnb : isNullish b = false) (h : (isBoolean a || isBoolean b) = true) :
    c.looseStep again a b = again (fromF64 (c.toNumber a)) (fromF64 (c.toNumber b)) := by
  unfold looseStep
  rw [hna, hnb, if_neg (by decide), if_neg (by decide), if_pos h]

theorem looseEquals_boolean (hna : isNullish a = false) (hnb : isNullish b = false)
    (h : (isBoolean a || isBoolean b) = true) :
    c.looseEquals a b = eq (c.toNumber a) (c.toNumber b) := by
  obtain ⟨x, hx, hxe⟩ := numOf_fromF64 (c.toNumber a)
  obtain ⟨y, hy, hye⟩ := numOf_fromF64 (c.toNumber b)
  rw [looseEquals, looseStep_boolean _ hna hnb h, looseStep_numbers _ hx hy, hxe, eq_comm_bool,
    hye, eq_comm_bool]

end Contents

/-! ## §5 Values -/

/-- What `loose_equals` comes to on values. -/
def looseValues : EsValue → EsValue → Bool
  | .undefined, .undefined | .null, .null | .undefined, .null | .null, .undefined => true
  | .number x, .number y => eq x y
  | .string s, .string t => s = t
  | .bool b, .bool b' => b = b'
  | .number x, .string t | .string t, .number x => eq x (stringToNumber t)
  | .bool b, .number x | .number x, .bool b => eq (ofNat b.toNat) x
  | .bool b, .string t | .string t, .bool b => eq (ofNat b.toNat) (stringToNumber t)
  | _, _ => false

theorem eq_bits (b b' : Bool) : eq (ofNat b.toNat) (ofNat b'.toNat) = decide (b = b') := by
  revert b b'
  decide +kernel

theorem eq_nan (x : BitVec 64) : eq x nan = false := by rw [eq_comm_bool, eq_of_isNaN isNaN_nan]

section Values

variable {c : Contents} {a b : JsValue} {x y : EsValue}

theorem looseEquals_bool (p : Bool) (hb : Denotes c b y) :
    c.looseEquals (.bool p) b = looseValues (.bool p) y := by
  cases hb with
  | undefined => rfl
  | null => rfl
  | bool q => exact (Contents.looseEquals_boolean rfl rfl rfl).trans (eq_bits p q)
  | number h =>
    refine (Contents.looseEquals_boolean rfl (Contents.isNullish_of_numOf h).1 rfl).trans ?_
    rw [Contents.toNumber_of_numOf h]
    rfl
  | string h => exact Contents.looseEquals_boolean rfl rfl rfl
  | symbol h => exact (Contents.looseEquals_boolean rfl rfl rfl).trans (eq_nan _)
  | bigint h => exact (Contents.looseEquals_boolean rfl rfl rfl).trans (eq_nan _)

theorem looseEquals_number {n : BitVec 64} (ha : numOf a = some n) (hb : Denotes c b y) :
    c.looseEquals a b = looseValues (.number n) y := by
  cases hb with
  | undefined => rcases numOf_cases ha with ⟨m, rfl⟩ | ⟨d, rfl⟩ <;> rfl
  | null => rcases numOf_cases ha with ⟨m, rfl⟩ | ⟨d, rfl⟩ <;> rfl
  | bool q =>
    refine (Contents.looseEquals_boolean (Contents.isNullish_of_numOf ha).1 rfl
      (Bool.or_true _)).trans ?_
    rw [Contents.toNumber_of_numOf ha, eq_comm_bool]
    rfl
  | number h => exact Contents.looseStep_numbers _ ha h
  | string h => rcases numOf_cases ha with ⟨m, rfl⟩ | ⟨d, rfl⟩ <;> cases ha <;> rfl
  | symbol h => rcases numOf_cases ha with ⟨m, rfl⟩ | ⟨d, rfl⟩ <;> cases ha <;> rfl
  | bigint h => rcases numOf_cases ha with ⟨m, rfl⟩ | ⟨d, rfl⟩ <;> cases ha <;> rfl

theorem looseEquals_string (i : Nat) (hb : Denotes c b y) :
    c.looseEquals (.string i) b = looseValues (.string (c.text i)) y := by
  cases hb with
  | undefined => rfl
  | null => rfl
  | bool q => exact (Contents.looseEquals_boolean rfl rfl rfl).trans (eq_comm_bool _ _)
  | number h => rcases numOf_cases h with ⟨m, rfl⟩ | ⟨d, rfl⟩ <;> cases h <;> rfl
  | string h => rfl
  | symbol h => rfl
  | bigint h => rfl

/-- **`loose_equals` is a function of the values**: of the heap it reads the texts. -/
theorem looseEquals_values (ha : Denotes c a x) (hb : Denotes c b y) :
    c.looseEquals a b = looseValues x y := by
  cases ha with
  | undefined =>
    cases hb with
    | number h => rcases numOf_cases h with ⟨m, rfl⟩ | ⟨d, rfl⟩ <;> rfl
    | _ => rfl
  | null =>
    cases hb with
    | number h => rcases numOf_cases h with ⟨m, rfl⟩ | ⟨d, rfl⟩ <;> rfl
    | _ => rfl
  | bool p => exact looseEquals_bool p hb
  | number h => exact looseEquals_number h hb
  | string i => exact looseEquals_string i hb
  | symbol i =>
    cases hb with
    | bool q =>
      exact (Contents.looseEquals_boolean rfl rfl rfl).trans (eq_of_isNaN isNaN_nan _)
    | number h => rcases numOf_cases h with ⟨m, rfl⟩ | ⟨d, rfl⟩ <;> rfl
    | _ => rfl
  | bigint i =>
    cases hb with
    | bool q =>
      exact (Contents.looseEquals_boolean rfl rfl rfl).trans (eq_of_isNaN isNaN_nan _)
    | number h => rcases numOf_cases h with ⟨m, rfl⟩ | ⟨d, rfl⟩ <;> rfl
    | _ => rfl

theorem value_ofNat_bit (b : Bool) (m : Int) :
    IsFinite (ofNat b.toNat) ∧ value (ofNat b.toNat) = m ↔ m = b.toNat := by
  have hlt : b.toNat < 2 ^ 53 := by cases b <;> decide
  obtain ⟨hneg, hfin, hunits⟩ := ofNat_small hlt
  rw [value_of_units hunits, hneg, if_neg (by decide)]
  constructor
  · rintro ⟨-, h⟩
    exact_mod_cast h.symm
  · rintro rfl
    exact ⟨hfin, by norm_cast⟩

-- The equations are made here, ahead of the proofs below that all ask for them.
attribute [local simp] looseValues

theorem looseValues_iff (x y : EsValue) :
    (looseValues x y = true ↔ IsLooselyEqual x y) ↔ ¬ Missed x y := by
  cases x with
  | undefined => cases y <;> simp [looseValues, IsLooselyEqual, LooselyCore, Missed]
  | null => cases y <;> simp [looseValues, IsLooselyEqual, LooselyCore, Missed]
  | bool p =>
    cases y <;> simp [looseValues, IsLooselyEqual, LooselyCore, Missed, MisreadAs, value_ofNat_bit]
  | number n => cases y <;> simp [looseValues, IsLooselyEqual, LooselyCore, Missed, MisreadAs, eq_comm_bool]
  | string t =>
    cases y <;> simp [looseValues, IsLooselyEqual, LooselyCore, Missed, MisreadAs]
  | symbol i => cases y <;> simp [looseValues, IsLooselyEqual, LooselyCore, Missed]
  | bigint m =>
    cases y <;> simp [looseValues, IsLooselyEqual, LooselyCore, Missed, value_ofNat_bit]

theorem looseValues_comm (x y : EsValue) : looseValues x y = looseValues y x := by
  cases x <;> cases y <;> simp [looseValues, eq_comm_bool, eq_comm]

theorem looseValues_of_strict (ha : Denotes c a x) (hb : Denotes c b y)
    (h : c.strictEquals a b = true) : looseValues x y = true ∨ Missed x y := by
  cases ha with
  | undefined =>
    cases hb with
    | undefined => exact .inl rfl
    | number h' => rcases numOf_cases h' with ⟨m, rfl⟩ | ⟨d, rfl⟩ <;> cases h
    | _ => cases h
  | null =>
    cases hb with
    | null => exact .inl rfl
    | number h' => rcases numOf_cases h' with ⟨m, rfl⟩ | ⟨d, rfl⟩ <;> cases h
    | _ => cases h
  | bool p =>
    cases hb with
    | bool q => exact .inl h
    | number h' => rcases numOf_cases h' with ⟨m, rfl⟩ | ⟨d, rfl⟩ <;> cases h
    | _ => cases h
  | number ha =>
    cases hb with
    | number h' =>
      unfold Contents.strictEquals at h
      rw [ha, h'] at h
      exact .inl h
    | _ => rcases numOf_cases ha with ⟨m, rfl⟩ | ⟨d, rfl⟩ <;> cases h
  | string i =>
    cases hb with
    | string j => exact .inl h
    | number h' => rcases numOf_cases h' with ⟨m, rfl⟩ | ⟨d, rfl⟩ <;> cases h
    | _ => cases h
  | symbol i =>
    cases hb with
    | symbol j => exact .inr (of_decide_eq_true (p := i = j) h)
    | number h' => rcases numOf_cases h' with ⟨m, rfl⟩ | ⟨d, rfl⟩ <;> cases h
    | _ => cases h
  | bigint i =>
    cases hb with
    | bigint j => exact .inr (congrArg c.bigint (of_decide_eq_true (p := i = j) h))
    | number h' => rcases numOf_cases h' with ⟨m, rfl⟩ | ⟨d, rfl⟩ <;> cases h
    | _ => cases h

theorem looseHeld_iff (ha : Denotes c a x) (hb : Denotes c b y) :
    LooseHeld c a b x y ↔ ¬ Missed x y := by
  have hcode := looseEquals_values ha hb
  constructor
  · intro h
    have hfollows := h.follows
    rw [hcode] at hfollows
    exact (looseValues_iff x y).mp hfollows
  · intro hmissed
    refine ⟨?_, ?_, ?_, ?_, ?_⟩
    · rw [hcode]
      exact (looseValues_iff x y).mpr hmissed
    · rw [hcode, looseEquals_values hb ha, looseValues_comm]
    · intro hstrict
      rw [hcode]
      exact (looseValues_of_strict ha hb hstrict).resolve_right hmissed
    · rintro rfl
      rw [hcode]
      cases y <;> simp [looseValues]
    · rintro n rfl hnan
      rw [hcode]
      cases y <;> simp [looseValues, eq_of_isNaN hnan, eq_comm_bool _ n]

end Values

theorem strictEquals_object (c : Contents) (h k : Nat) :
    c.strictEquals (.object h) (.object k) = true ↔ h = k := decide_eq_true_iff

/-- **`loose_equals` is ECMAScript's exactly** on the pairs that are not missed. -/
theorem equality_iff (c : Contents) (a b : JsValue) :
    EqualityHeld c a b ↔ ∀ x y, Denotes c a x → Denotes c b y → ¬ Missed x y := by
  constructor
  · exact fun h x y ha hb => (looseHeld_iff ha hb).mp (h.1 x y ha hb)
  · intro h
    refine ⟨fun x y ha hb => (looseHeld_iff ha hb).mpr (h x y ha hb), ?_⟩
    rintro i j rfl rfl
    exact strictEquals_object c i j

/-- A symbol is not loosely equal to itself, and neither is `1n`. -/
theorem not_equalityHeld : ¬ ∀ c a b, EqualityHeld c a b := by
  intro h
  have hheld := (h ⟨fun _ => [], fun _ => 1⟩ (.bigint 0) (.bigint 0)).1 _ _ (.bigint 0) (.bigint 0)
  exact absurd (hheld.strict (by decide)) (by decide)

end V12.Interp
