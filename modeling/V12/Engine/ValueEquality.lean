/-
V12.Engine.ValueEquality — the relations IsStrictlyEqual and SameValueZero as
they are written out in `v12-engine/src/builtins/helpers.rs`, `map.rs`,
`iterator.rs`, `v12-interp/src/ops.rs` and `generic_receiver.rs`.

They run on the strings and cells of a heap.
-/
import V12.Engine.CollectionsTheorems
import V12.Heap.RopeRuns

namespace V12.Engine

open V12.Heap V12.Heap.JsValue V12.Interp Lib.Binary64

/-! ## §1 The code -/

/-- A relation on words; `none` is a panic. -/
abbrev HeapRelation := Heap → JsValue → JsValue → Option Bool

/-- `strict_equals` of `helpers.rs`. -/
def Helpers.strictEquals : HeapRelation := fun h a b =>
  match numOf a, numOf b with
  | some x, some y => some (eq x y)
  | _, _ =>
    match a, b with
    | .string x, .string y => h.stringsEqual x y
    | .bool x, .bool y => some (x = y)
    | .bigint x, .bigint y => some (x = y)
    | .symbol x, .symbol y => some (x = y)
    | .object x, .object y => some (x = y)
    | .undefined, .undefined | .null, .null => some true
    | _, _ => some false

/-- `strict_equals` of `ops.rs`, the same text. -/
def Ops.strictEquals : HeapRelation := Helpers.strictEquals

/-- `strict_equals` of `generic_receiver.rs`. -/
def GenericReceiver.strictEquals : HeapRelation := Ops.strictEquals

/-- `as_f64().map(f64::is_nan).unwrap_or(false)`. -/
def isNaNDouble (v : JsValue) : Bool :=
  match v.asF64 with
  | some x => IsNaN x
  | none => false

/-- `same_value_zero` of `helpers.rs`. -/
def Helpers.sameValueZero : HeapRelation := fun h a b =>
  if a.asSmi.isNone && isNaNDouble a && isNaNDouble b then some true else strictEquals h a b

/-- `same_value_zero` of `map.rs`. -/
def Maps.sameValueZero : HeapRelation := fun _ a b => some (Collections.sameValueZero a b)

/-- `same_value_zero` of `iterator.rs`. -/
def Iterators.sameValueZero : HeapRelation := fun _ a b =>
  match numOf a, numOf b with
  | some x, some y => some ((IsNaN x && IsNaN y) || eq x y)
  | _, _ => some (a = b)

/-- `same_value_zero` of `generic_receiver.rs`. -/
def GenericReceiver.sameValueZero : HeapRelation := fun h a b =>
  match numOf a, numOf b with
  | some x, some y => some (eq x y || (IsNaN x && IsNaN y))
  | _, _ => Ops.strictEquals h a b

def strictEqualities : List HeapRelation :=
  [Helpers.strictEquals, Ops.strictEquals, GenericReceiver.strictEquals]

def sameValueZeros : List HeapRelation :=
  [Helpers.sameValueZero, Maps.sameValueZero, Iterators.sameValueZero,
    GenericReceiver.sameValueZero]

/-! ## §2 What ECMAScript defines -/

def bigintValue (b : V12BigInt) : Int :=
  let magnitude : Nat := b.magnitudeLe.foldr (fun byte n => byte.toNat + 256 * n) 0
  if b.sign then -(magnitude : Int) else magnitude

def contents (s : RopeState) : Contents where
  text := s.units
  bigint i := ((s.heap.get (.bigints, i)).map bigintValue).getD 0

def IsStrictlyEqual (c : Contents) (a b : JsValue) : Bool :=
  match numOf a, numOf b with
  | some x, some y => eq x y
  | _, _ =>
    match a, b with
    | .string x, .string y => c.text x = c.text y
    | .bigint x, .bigint y => c.bigint x = c.bigint y
    | _, _ => a = b

/-- A language value: its cell is live, and it is none of the engine's own words. -/
structure IsValue (s : RopeState) (v : JsValue) : Prop where
  live : ∀ r, v.asSlot = some r → s.heap.isAlive r = true
  smi : ∀ n, v = .smi n → InSmi n
  noHole : v ≠ .hole
  noEmpty : v ≠ .empty

/-- The seven relations answer for two values as ECMAScript's do. -/
structure EqualityAgreed (s : RopeState) (a b : JsValue) : Prop where
  strict : ∀ f ∈ strictEqualities, f s.heap a b = some (IsStrictlyEqual (contents s) a b)
  /-- All answer the same, which is strict equality but for NaN. -/
  zero : ∀ f ∈ sameValueZeros, f s.heap a b =
    some (IsStrictlyEqual (contents s) a b || (isNaNDouble a && isNaNDouble b))
  reflexive : ∀ f ∈ sameValueZeros, f s.heap a a = some true
  symmetric : ∀ f ∈ sameValueZeros, f s.heap b a = f s.heap a b
  transitive : ∀ f ∈ sameValueZeros, ∀ d, IsValue s d → f s.heap a b = some true →
    f s.heap b d = some true → f s.heap a d = some true

/-- Two words for one value that are told apart: big integers of two cells, strings of two handles,
a small integer and a double. -/
def Parted (c : Contents) (a b : JsValue) : Prop :=
  match a, b with
  | .bigint i, .bigint j => i ≠ j ∧ c.bigint i = c.bigint j
  | .string i, .string j => i ≠ j ∧ c.text i = c.text j
  | .smi n, .double x | .double x, .smi n => eq (f64OfInt n) x = true
  | _, _ => False

/-! ## §3 Keys -/

def numberKey (x : BitVec 64) : BitVec 64 :=
  if IsNaN x then QUIET_NAN_BITS else if units x = 0 then 0#64 else x

theorem numberKey_iff (x y : BitVec 64) :
    numberKey x = numberKey y ↔ (IsNaN x ∧ IsNaN y) ∨ eq x y = true := by
  have hquiet : IsNaN QUIET_NAN_BITS := by decide
  have hzero : ¬ IsNaN 0#64 := by decide
  have hunits : units 0#64 = 0 := by decide
  unfold numberKey eq
  rw [decide_eq_true_eq]
  split_ifs <;> grind

abbrev EqualityKey := JsValue ⊕ List (BitVec 16)

def wordKey (num : JsValue → Option (BitVec 64)) (v : JsValue) : EqualityKey :=
  match num v with
  | some x => .inl (.double (numberKey x))
  | none => .inl v

def textKey (units : Nat → List (BitVec 16)) (v : JsValue) : EqualityKey :=
  match v with
  | .string i => .inr (units i)
  | v => wordKey numOf v

def Compares (s : RopeState) (key : JsValue → EqualityKey) (f : HeapRelation) : Prop :=
  ∀ a b, IsValue s a → IsValue s b → f s.heap a b = some (decide (key a = key b))

variable {s : RopeState} {a b : JsValue}

theorem compares_maps (s : RopeState) : Compares s (wordKey asF64) Maps.sameValueZero := by
  intro a b _ _
  refine congrArg some (Bool.eq_iff_iff.mpr ?_)
  have hzeros (x y : BitVec 64) := @Collections.eq_of_zeros x y
  cases a <;> cases b <;> simp_all [Collections.sameValueZero, wordKey, numberKey_iff, asF64]

theorem compares_iterators (s : RopeState) :
    Compares s (wordKey numOf) Iterators.sameValueZero := by
  intro a b _ _
  cases a <;> cases b <;>
    simp [Iterators.sameValueZero, wordKey, numberKey_iff, numOf, asF64, asSmi,
      Bool.decide_or, Bool.decide_and]

theorem smi_notNaN {n : Int} (h : InSmi n) : ¬ IsNaN (f64OfInt n) := by
  obtain ⟨hmin, hmax⟩ := h
  simp only [SMI_MIN, SMI_MAX] at hmin hmax
  exact fun hnan => (f64OfInt_exact (by omega)).1 hnan.1

theorem strictEquals_eq (hinv : Strings s.heap s.units) (ha : IsValue s a) (hb : IsValue s b) :
    Helpers.strictEquals s.heap a b = some (decide (textKey s.units a = textKey s.units b) &&
      !(isNaNDouble a && isNaNDouble b)) := by
  have hstrings (i j : Nat) (hi : a = .string i) (hj : b = .string j) :=
    stringsEqual_spec hinv (ha.live (.strings, i) (by rw [hi]; rfl))
      (hb.live (.strings, j) (by rw [hj]; rfl))
  have hasmi (n : Int) (hn : a = .smi n) := smi_notNaN (ha.smi n hn)
  have hbsmi (n : Int) (hn : b = .smi n) := smi_notNaN (hb.smi n hn)
  have hhole := ha.noHole
  have hempty := ha.noEmpty
  cases a <;> cases b <;>
    simp_all [Helpers.strictEquals, textKey, wordKey, numberKey_iff, numOf, asF64, asSmi,
      isNaNDouble]
  case double.double x y => by_cases hx : IsNaN x <;> simp [hx, eq_of_isNaN]

theorem textKey_of_nan (units : Nat → List (BitVec 16)) (ha : isNaNDouble a = true) :
    a.asSmi = none ∧ textKey units a = .inl (.double QUIET_NAN_BITS) := by
  cases a <;> simp_all [isNaNDouble, asF64, asSmi, textKey, wordKey, numOf, numberKey]

theorem compares_helpers (hinv : Strings s.heap s.units) :
    Compares s (textKey s.units) Helpers.sameValueZero := by
  intro a b ha hb
  rw [Helpers.sameValueZero, strictEquals_eq hinv ha hb]
  cases hnan : isNaNDouble a && isNaNDouble b with
  | false => simp [Bool.and_assoc, hnan]
  | true =>
    obtain ⟨hna, hnb⟩ := (Bool.and_eq_true _ _).mp hnan
    obtain ⟨hsmi, hkey⟩ := textKey_of_nan s.units hna
    simp [hsmi, hna, hnb, hkey, (textKey_of_nan s.units hnb).2]

theorem compares_generic (hinv : Strings s.heap s.units) :
    Compares s (textKey s.units) GenericReceiver.sameValueZero := by
  intro a b ha hb
  have hstrict := strictEquals_eq hinv ha hb
  cases a <;> cases b <;>
    simp_all [GenericReceiver.sameValueZero, Ops.strictEquals, textKey, wordKey, numberKey_iff,
      numOf, asF64, asSmi, isNaNDouble, Bool.or_comm]

/-! ## §4 Pairs that are not parted -/

theorem eq_smis {m n : Int} (hm : InSmi m) (hn : InSmi n) :
    eq (f64OfInt m) (f64OfInt n) = decide (m = n) := by
  have hnan := smi_notNaN hm
  obtain ⟨hm₁, hm₂⟩ := hm
  obtain ⟨hn₁, hn₂⟩ := hn
  simp only [SMI_MIN, SMI_MAX] at hm₁ hm₂ hn₁ hn₂
  rw [Bool.eq_iff_iff, decide_eq_true_eq]
  constructor
  · intro heq
    have hvalue : value (f64OfInt m) = value (f64OfInt n) := by
      obtain ⟨-, -, heq | ⟨hm, hn⟩⟩ := of_decide_eq_true heq
      · rw [heq]
      · simp only [value, hm, hn, Nat.cast_zero, zero_div, neg_zero, ite_self]
    rw [value_f64OfInt (by omega), value_f64OfInt (by omega)] at hvalue
    exact_mod_cast hvalue
  · rintro rfl
    exact decide_eq_true ⟨hnan, hnan, .inl rfl⟩

theorem eq_iff_of_inj {α : Type} {f : Nat → α} {i j : Nat} (h : ¬ i = j → ¬ f i = f j) :
    i = j ↔ f i = f j :=
  ⟨congrArg f, fun heq => by_contra fun hne => h hne heq⟩

theorem keys_iff {key : JsValue → EqualityKey} (hkey : key = wordKey asF64 ∨ key = wordKey numOf)
    (ha : IsValue s a) (hb : IsValue s b) (h : ¬ Parted (contents s) a b) :
    key a = key b ↔ textKey s.units a = textKey s.units b := by
  have hsmis (m n : Int) (hm : a = .smi m) (hn : b = .smi n) :=
    eq_smis (ha.smi m hm) (hb.smi n hn)
  have hasmi (n : Int) (hn : a = .smi n) := smi_notNaN (ha.smi n hn)
  have hbsmi (n : Int) (hn : b = .smi n) := smi_notNaN (hb.smi n hn)
  rcases hkey with rfl | rfl <;> cases a <;> cases b <;>
    simp_all [textKey, wordKey, numberKey_iff, numOf, asF64, asSmi, Parted, contents]
  case inl.double.smi x n => rw [eq_comm_bool, h]
  case inl.string.string i j => exact eq_iff_of_inj h
  case inr.string.string i j => exact eq_iff_of_inj h

theorem strict_eq (ha : IsValue s a) (hb : IsValue s b) (h : ¬ Parted (contents s) a b) :
    IsStrictlyEqual (contents s) a b =
      (decide (textKey s.units a = textKey s.units b) && !(isNaNDouble a && isNaNDouble b)) := by
  have hasmi (n : Int) (hn : a = .smi n) := smi_notNaN (ha.smi n hn)
  have hbsmi (n : Int) (hn : b = .smi n) := smi_notNaN (hb.smi n hn)
  cases a <;> cases b <;>
    simp_all [IsStrictlyEqual, textKey, wordKey, numberKey_iff, numOf, asF64, asSmi, Parted,
      contents, isNaNDouble]
  case double.double x y => by_cases hx : IsNaN x <;> simp [hx, eq_of_isNaN]
  case string.string i j => exact decide_eq_decide.mpr Iff.rfl
  case bigint.bigint i j =>
    exact decide_eq_decide.mpr (eq_iff_of_inj (f := (contents s).bigint) h).symm

theorem zero_eq (ha : IsValue s a) (hb : IsValue s b) (h : ¬ Parted (contents s) a b) :
    (IsStrictlyEqual (contents s) a b || (isNaNDouble a && isNaNDouble b)) =
      decide (textKey s.units a = textKey s.units b) := by
  rw [strict_eq ha hb h]
  cases hnan : isNaNDouble a && isNaNDouble b with
  | false => simp
  | true =>
    obtain ⟨hna, hnb⟩ := (Bool.and_eq_true _ _).mp hnan
    simp [(textKey_of_nan s.units hna).2, (textKey_of_nan s.units hnb).2]

/-! ## §5 All seven relations -/

theorem compares_of_mem (hinv : Strings s.heap s.units) {f : HeapRelation}
    (hf : f ∈ sameValueZeros) : ∃ key, Compares s key f ∧ ∀ a b, IsValue s a → IsValue s b →
      ¬ Parted (contents s) a b → (key a = key b ↔ textKey s.units a = textKey s.units b) := by
  simp only [sameValueZeros, List.mem_cons, List.not_mem_nil, or_false] at hf
  rcases hf with rfl | rfl | rfl | rfl
  · exact ⟨_, compares_helpers hinv, fun _ _ _ _ _ => Iff.rfl⟩
  · exact ⟨_, compares_maps s, fun a b => keys_iff (.inl rfl)⟩
  · exact ⟨_, compares_iterators s, fun a b => keys_iff (.inr rfl)⟩
  · exact ⟨_, compares_generic hinv, fun _ _ _ _ _ => Iff.rfl⟩

theorem strict_of_mem {f : HeapRelation} (hf : f ∈ strictEqualities) : f = Helpers.strictEquals := by
  simp only [strictEqualities, List.mem_cons, List.not_mem_nil, or_false] at hf
  rcases hf with rfl | rfl | rfl <;> rfl

theorem not_parted (hagreed : EqualityAgreed s a b) : ¬ Parted (contents s) a b := by
  have hmaps := hagreed.zero Maps.sameValueZero (by simp [sameValueZeros])
  have hstrict := hagreed.strict Helpers.strictEquals (by simp [strictEqualities])
  intro hparted
  unfold Parted at hparted
  split at hparted
  · obtain ⟨hne, heq⟩ := hparted
    simp [Helpers.strictEquals, IsStrictlyEqual, numOf, asF64, asSmi, hne, heq] at hstrict
  · obtain ⟨hne, heq⟩ := hparted
    simp [Maps.sameValueZero, Collections.sameValueZero, IsStrictlyEqual, numOf, asF64, asSmi, hne,
      heq] at hmaps
  · simp [Maps.sameValueZero, Collections.sameValueZero, IsStrictlyEqual, numOf, asF64, asSmi,
      hparted] at hmaps
  · rw [eq_comm_bool] at hparted
    simp [Maps.sameValueZero, Collections.sameValueZero, IsStrictlyEqual, numOf, asF64, asSmi,
      hparted] at hmaps
  · exact hparted

/-- **The relations agree exactly** on the values that are not parted, whatever run of the heap has
made their strings and cells. -/
theorem equality_exactly {ops : List StrOp}
    (hkept : Lib.StepsMeet RopeState.step RopeState.Kept .new ops) {a b : JsValue}
    (ha : IsValue (Lib.run RopeState.step .new ops) a)
    (hb : IsValue (Lib.run RopeState.step .new ops) b) :
    EqualityAgreed (Lib.run RopeState.step .new ops) a b ↔
      ¬ Parted (contents (Lib.run RopeState.step .new ops)) a b := by
  have hinv := RopeState.strings_run hkept
  generalize Lib.run RopeState.step .new ops = s at *
  refine ⟨not_parted, fun h => ⟨?_, ?_, ?_, ?_, ?_⟩⟩
  · intro f hf
    rw [strict_of_mem hf, strictEquals_eq hinv ha hb, strict_eq ha hb h]
  · intro f hf
    obtain ⟨key, hcompares, hkey⟩ := compares_of_mem hinv hf
    rw [hcompares a b ha hb, decide_eq_decide.mpr (hkey a b ha hb h), zero_eq ha hb h]
  · intro f hf
    obtain ⟨key, hcompares, -⟩ := compares_of_mem hinv hf
    rw [hcompares a a ha ha, decide_eq_true rfl]
  · intro f hf
    obtain ⟨key, hcompares, -⟩ := compares_of_mem hinv hf
    rw [hcompares a b ha hb, hcompares b a hb ha]
    exact congrArg some (decide_eq_decide.mpr eq_comm)
  · intro f hf d hd hab hbd
    obtain ⟨key, hcompares, -⟩ := compares_of_mem hinv hf
    rw [hcompares _ _ ha hb] at hab
    rw [hcompares _ _ hb hd] at hbd
    rw [hcompares _ _ ha hd]
    have hkeys := (of_decide_eq_true (Option.some.inj hab)).trans
      (of_decide_eq_true (Option.some.inj hbd))
    rw [decide_eq_true hkeys]

theorem isValue_smi {n : Int} (hn : InSmi n) : IsValue s (.smi n) where
  live _ hr := by cases hr
  smi m hm := JsValue.smi.inj hm ▸ hn
  noHole h := by cases h
  noEmpty h := by cases h

theorem isValue_double (x : BitVec 64) : IsValue s (.double x) where
  live _ hr := by cases hr
  smi _ hm := by cases hm
  noHole h := by cases h
  noEmpty h := by cases h

/-- A rope and one of its leaves. -/
theorem equality_exactly_rope : EqualityAgreed
    (Lib.run RopeState.step .new [.alloc ⟨.latin1 [0x61], none⟩, .alloc ⟨.utf16 [0xD800], none⟩,
      .concat 0 1]) (.string 2) (.string 0) := by
  have hkept : Lib.StepsMeet RopeState.step RopeState.Kept .new
      [.alloc ⟨.latin1 [0x61], none⟩, .alloc ⟨.utf16 [0xD800], none⟩, .concat 0 1] :=
    ⟨⟨trivial, rfl⟩, ⟨trivial, rfl⟩, ⟨by decide, by decide⟩, trivial⟩
  refine (equality_exactly hkept ?_ ?_).mpr fun ⟨_, htext⟩ => absurd htext (by decide)
  · exact ⟨fun _ hr => Option.some.inj hr ▸ rfl, by nofun, by nofun, by nofun⟩
  · exact ⟨fun _ hr => Option.some.inj hr ▸ rfl, by nofun, by nofun, by nofun⟩

/-- A Map does not find `-0` where a small zero is. -/
theorem not_equalityAgreed : ¬ ∀ ops : List StrOp,
    Lib.StepsMeet RopeState.step RopeState.Kept .new ops → ∀ a b,
      IsValue (Lib.run RopeState.step .new ops) a → IsValue (Lib.run RopeState.step .new ops) b →
        EqualityAgreed (Lib.run RopeState.step .new ops) a b := by
  intro h
  have hagreed := h [] trivial (.smi 0) (.double 0x8000000000000000#64) (isValue_smi (by decide))
    (isValue_double _)
  have hzeros : eq (f64OfInt 0) 0x8000000000000000#64 = true := by
    refine decide_eq_true ⟨by decide, by decide, .inr ⟨?_, ?_⟩⟩
    · rw [units, show significand (f64OfInt 0) = 0 by decide, Nat.zero_mul]
    · rw [units, show significand 0x8000000000000000#64 = 0 by decide, Nat.zero_mul]
  exact not_parted hagreed hzeros

end V12.Engine
