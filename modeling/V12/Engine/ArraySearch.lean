/-
V12.Engine.ArraySearch — `indexOf`, `lastIndexOf`, `includes` and `at` of
`v12-engine/src/builtins/array.rs`.

A receiver is an object with its prototype chain. The methods search the element
store of an array, and `index_get` of any other receiver up to its visible extent;
both miss what the element store of a prototype holds. `relative_index` clamps a
position in front of the array to its first index.

§4 lists what a receiver can hold that the methods do not see, or see in place of
the element, and the two arguments they read otherwise; §6 is where they look, and
that the visible extent covers every key of a chain measured to its end. With both,
`scans_iff` is exact: an index that is misjudged does no harm behind a match.
-/
import V12.Engine.StringWindows
import V12.Heap.DenseEntries
import V12.Interp.Equality
import V12.Lib.Occurrences

namespace V12.ArrayMethods

open V12.Heap V12.Heap.JsValue
open V12.Interp (Contents numOf)
open V12.StringMethods (Argument Place toIndex clampIndex)
open Lib.Occurrences

/-! ## §1 Receivers -/

/-- An object and the properties under canonical numeric keys that its shape and its dictionary
hold; a hole is a property that was deleted. -/
structure Holder where
  object : JsObject
  built : object.elementsArray.Built
  keys : List (Nat × JsValue)

/-- A receiver, its prototypes, and the length that `array_like_len` reads. -/
structure Receiver where
  own : Holder
  prototypes : List Holder
  len : Nat
  short : len < 2 ^ 53

def Holder.indexed (h : Holder) : Bool := h.object.kind = .array || h.object.kind = .arguments

def Holder.cell (h : Holder) (i : Nat) : Option JsValue :=
  (h.keys.lookup i).filter fun v => !v.isHole

/-- `dispatch_has` and `dispatch_get` of an index that the receiver's own store does not have. -/
def lookup (chain : List Holder) (i : Nat) : Option JsValue := chain.findSome? fun h => h.cell i

def Receiver.stored (r : Receiver) (i : Nat) : Option JsValue :=
  if r.own.indexed then r.own.object.getElement i else none

/-- `index_get`. -/
def indexGet (r : Receiver) (i : Nat) : JsValue × Bool :=
  if i > 2 ^ 32 - 2 then (.undefined, false)
  else
    match r.stored i with
    | some v => (v, !v.isHole)
    | none =>
      match lookup (r.own :: r.prototypes) i with
      | some v => (v, !v.isHole)
      | none => (.undefined, false)

/-- `MAX_SCAN_SPAN`. -/
def maxScanSpan : Nat := 1000000

/-- The loop of `visible_extent`; `index_text` reads up to ten digits. -/
def extentFrom : Nat → List Holder → Nat
  | extent, [] => extent
  | extent, h :: chain =>
    if extent ≥ maxScanSpan then extent
    else extentFrom (h.keys.foldl (fun e k => if k.1 < 10 ^ 10 then max e (k.1 + 1) else e) extent) chain

def visibleExtent (r : Receiver) : Nat :=
  if r.own.object.kind = .array then 2 ^ 63 - 1
  else extentFrom r.own.object.elements.length (r.own :: r.prototypes)

/-- `relative_index`. -/
def relativeIndex (v : Argument) (len default : ℤ) : ℤ :=
  match v with
  | .absent | .undefined => default
  | .number x => clampIndex (toIndex x) len

/-! ## §2 The methods -/

section Methods

variable (c : Contents) (r : Receiver) (search : JsValue)

/-- `same_value_zero`. -/
def sameValueZero (a b : JsValue) : Bool :=
  (a.asSmi.isNone && a.asF64.any fun x => Lib.Binary64.IsNaN x) &&
    (b.asF64.any fun x => Lib.Binary64.IsNaN x) || c.strictEquals a b

def scanEntries (hit : JsValue → Bool) (start len : ℤ) : List (Nat × JsValue) → Option Nat
  | [] => none
  | (i, v) :: entries =>
    if i < start then scanEntries hit start len entries
    else if len ≤ i then none
    else if hit v then some i
    else scanEntries hit start len entries

/-- `count` indices upwards through `index_get`. -/
def scanUp (hit : JsValue × Bool → Bool) : Nat → Nat → Option Nat
  | 0, _ => none
  | count + 1, i => if hit (indexGet r i) then some i else scanUp hit count (i + 1)

def scanDown (hit : JsValue × Bool → Bool) : Nat → Option Nat
  | 0 => if hit (indexGet r 0) then some 0 else none
  | i + 1 => if hit (indexGet r (i + 1)) then some (i + 1) else scanDown hit i

/-- The offset, or `none` for `-1`. -/
def arrayIndexOf (from_ : Argument) : Option Nat :=
  let start := max (relativeIndex from_ r.len 0) 0
  if r.own.object.kind = .array then
    scanEntries (c.strictEquals search) start r.len r.own.object.elementsArray.denseEntries
  else
    let extent := min (visibleExtent r) r.len
    scanUp r (fun e => e.2 && c.strictEquals search e.1) (extent - start.toNat) start.toNat

def scanEntriesDown (hit : JsValue → Bool) (start len : ℤ) : List (Nat × JsValue) → Option Nat
  | [] => none
  | (i, v) :: entries =>
    if i > start ∨ len ≤ i then scanEntriesDown hit start len entries
    else if hit v then some i
    else scanEntriesDown hit start len entries

def arrayLastIndexOf (from_ : Argument) : Option Nat :=
  let start := relativeIndex from_ r.len (r.len - 1)
  if r.own.object.kind = .array then
    scanEntriesDown (c.strictEquals search) start r.len
      r.own.object.elementsArray.denseEntries.reverse
  else
    let extent := min (visibleExtent r) r.len
    if extent = 0 then none
    else
      scanDown r (fun e => e.2 && c.strictEquals search e.1)
        (max (min start (extent - 1)) 0).toNat

/-- The loop of `includes` over the entries of an array; without a hit it answers how many there
are from the start on. -/
def countEntries (hit : JsValue → Bool) (start len : ℤ) : Nat → List (Nat × JsValue) → Option Nat
  | present, [] => some present
  | present, (i, v) :: entries =>
    if i < start then countEntries hit start len present entries
    else if len ≤ i then some present
    else if hit v then none
    else countEntries hit start len (present + 1) entries

def arrayIncludes (from_ : Argument) : Bool :=
  let start := max (relativeIndex from_ r.len 0) 0
  if r.own.object.kind = .array then
    match countEntries (sameValueZero c search) start r.len 0
        r.own.object.elementsArray.denseEntries with
    | none => true
    | some present => search = .undefined && r.len - start > present
  else
    let extent := min (visibleExtent r) r.len
    (scanUp r (fun e => e.2 && sameValueZero c search e.1 || !e.2 && search = .undefined)
      (extent - start.toNat) start.toNat).isSome || search = .undefined && extent < r.len

def arrayAt (index : Argument) : JsValue :=
  let idx := relativeIndex index r.len 0
  if idx < 0 ∨ r.len ≤ idx then .undefined else (indexGet r idx.toNat).1

end Methods

/-! ## §3 The reference scan -/

def Holder.element (h : Holder) (i : Nat) : Option JsValue :=
  match present (if h.indexed then h.object.getElement i else none) with
  | some v => some v
  | none => h.cell i

def Receiver.element (r : Receiver) (i : Nat) : Option JsValue :=
  (r.own :: r.prototypes).findSome? fun h => h.element i

def Receiver.value (r : Receiver) (i : Nat) : JsValue := (r.element i).getD .undefined

/-- `IsStrictlyEqual`. -/
def IsStrictlyEqual (c : Contents) (a b : JsValue) : Prop :=
  match numOf a, numOf b with
  | some x, some y => Lib.Binary64.eq x y = true
  | _, _ =>
    match a, b with
    | .undefined, .undefined | .null, .null => True
    | .bool x, .bool y => x = y
    | .string x, .string y => c.text x = c.text y
    | .bigint x, .bigint y => c.bigint x = c.bigint y
    | .symbol x, .symbol y => x = y
    | .object x, .object y => x = y
    | _, _ => False

/-- `SameValueZero`; a small integer is not NaN. -/
def SameValueZero (c : Contents) (a b : JsValue) : Prop :=
  IsStrictlyEqual c a b ∨
    ∃ x y, a = .double x ∧ b = .double y ∧ Lib.Binary64.IsNaN x ∧ Lib.Binary64.IsNaN y

/-- A call of a method. -/
inductive Search where
  | indexOf (search : JsValue) (from_ : Argument)
  | lastIndexOf (search : JsValue) (from_ : Argument)
  | includes (search : JsValue) (from_ : Argument)
  | at (index : Argument)

def HoldsAt (c : Contents) (r : Receiver) (search : JsValue) (i : Nat) : Prop :=
  i < r.len ∧ ∃ v, r.element i = some v ∧ IsStrictlyEqual c search v

/-- `lastIndexOf` starts at an index or behind it. -/
def Argument.AtMost (len i : Nat) : Argument → Prop
  | .absent => True
  | .undefined => i = 0
  | .number x =>
    match (V12.StringMethods.toPlace x).fromEnd len with
    | .first => False
    | .at z => (i : ℤ) ≤ z
    | .last => True

def Receiver.valueAt (r : Receiver) : Place → JsValue
  | .at z => if 0 ≤ z ∧ z < r.len then r.value z.toNat else .undefined
  | _ => .undefined

/-- A call answers as the reference scan does. -/
def Scans (c : Contents) (r : Receiver) : Search → Prop
  | .indexOf search from_ =>
    First (· < ·) (fun i => from_.place.relative r.len ≤ i ∧ HoldsAt c r search i)
      (arrayIndexOf c r search from_)
  | .lastIndexOf search from_ =>
    First (· > ·) (fun i => Argument.AtMost r.len i from_ ∧ HoldsAt c r search i)
      (arrayLastIndexOf c r search from_)
  | .includes search from_ => arrayIncludes c r search from_ = true ↔
      ∃ i, from_.place.relative r.len ≤ i ∧ i < r.len ∧ SameValueZero c search (r.value i)
  | .at index => arrayAt r index = r.valueAt (index.place.fromEnd r.len)

/-! ## §4 What the methods miss -/

/-- The element store of a holder answers the index with a value. -/
def Holder.Stores (h : Holder) (i : Nat) : Prop :=
  h.indexed = true ∧ ∃ v, h.object.getElement i = some v ∧ v.isHole = false

/-- The element store of a holder has the index, and no key of the holders in front of it. -/
def StoreFirst : List Holder → Nat → Prop
  | [], _ => False
  | h :: chain, i => h.Stores i ∨ h.cell i = none ∧ StoreFirst chain i

/-- The holders whose keys the loop of `visible_extent` reads before it comes to its cap: nothing
that was measured before them reaches it. -/
def Measured (elements : Nat) (front : List Holder) : Prop :=
  elements < maxScanSpan ∧ ∀ g ∈ front, ∀ k ∈ g.keys, k.1 < 10 ^ 10 → k.1 + 1 < maxScanSpan

/-- The index lies below an own element or a key of a holder that was measured. -/
def Receiver.Within (r : Receiver) (i : Nat) : Prop :=
  i < r.own.object.elements.length ∨ ∃ front h behind, r.own :: r.prototypes = front ++ h :: behind ∧
    Measured r.own.object.elements.length front ∧ ∃ k ∈ h.keys, k.1 < 10 ^ 10 ∧ i ≤ k.1

/-- The methods find nothing at the index: an array does not have it in its own store; another
receiver has it past the last index, or past all that was measured. -/
inductive Hidden (r : Receiver) (i : Nat) : Prop
  | notOwn (harray : r.own.object.kind = .array) (hown : ¬ r.own.Stores i)
  | large (hother : r.own.object.kind ≠ .array) (h : 2 ^ 32 - 1 ≤ i)
  | outside (hother : r.own.object.kind ≠ .array) (h : ¬ r.Within i)

/-- The element comes from the store of a prototype, which `index_get` does not ask. -/
def Receiver.Inherits (r : Receiver) (i : Nat) : Prop :=
  r.stored i = none ∧ r.own.cell i = none ∧ StoreFirst r.prototypes i

/-- A key behind the element store of a prototype is answered in place of the element. -/
def Shadowed (r : Receiver) (i : Nat) : Prop :=
  r.own.object.kind ≠ .array ∧ i < 2 ^ 32 - 1 ∧ r.Within i ∧ r.Inherits i

/-- The own store of the array keeps a marker of a deleted entry. -/
def Deleted (r : Receiver) (i : Nat) : Prop :=
  r.own.object.kind = .array ∧ r.own.object.getElement i = some .hole

/-- Two big integers of one value in different cells. -/
def TwoCells (c : Contents) (search : JsValue) (u : Option JsValue) : Prop :=
  ∃ a b, search = .bigint a ∧ u = some (.bigint b) ∧ a ≠ b ∧ c.bigint a = c.bigint b

section Judged

variable (c : Contents) (r : Receiver) (search : JsValue) (ok : Option JsValue → Prop)

/-- The element passes the test and the method passes over it. -/
inductive Missed (i : Nat) : Prop
  | hidden (h : Hidden r i) (hok : ok (r.element i)) (hnone : ¬ ok none)
  | deleted (h : Deleted r i) (hok : ok (r.element i))
  | shadowed (h : Shadowed r i) (hok : ok (r.element i))
      (hkey : ok (lookup (r.own :: r.prototypes) i) →
        TwoCells c search (lookup (r.own :: r.prototypes) i))
  | cells (hhidden : ¬ Hidden r i) (hshadowed : ¬ Shadowed r i) (hok : ok (r.element i))
      (h : TwoCells c search (r.element i))

/-- The element does not pass the test and the method takes the index. -/
inductive Phantom (i : Nat) : Prop
  | hidden (h : Hidden r i) (hdeleted : ¬ Deleted r i) (hok : ¬ ok (r.element i)) (hnone : ok none)
  | shadowed (h : Shadowed r i) (hok : ¬ ok (r.element i))
      (hkey : ok (lookup (r.own :: r.prototypes) i))
      (hcells : ¬ TwoCells c search (lookup (r.own :: r.prototypes) i))

/-- The element passes the test and the method takes it. -/
def Matched (i : Nat) : Prop := ok (r.element i) ∧ ¬ Missed c r search ok i

end Judged

/-- The test of `indexOf` and `lastIndexOf` at an index. -/
def EqualAt (c : Contents) (search : JsValue) (u : Option JsValue) : Prop :=
  ∃ v, u = some v ∧ IsStrictlyEqual c search v

/-- The test of `includes`, to which a hole is undefined. -/
def SameAt (c : Contents) (search : JsValue) (u : Option JsValue) : Prop :=
  SameValueZero c search (u.getD .undefined)

/-- `lastIndexOf` looks at an index: a start in front of the array is its first index. -/
def Argument.Covers (len i : Nat) : Argument → Prop
  | .absent | .undefined => True
  | .number x => i ≤ (V12.StringMethods.toPlace x).relative len

/-- The first index is undefined: nothing else is in the own store or, behind it, under a key. -/
def Receiver.FirstUndefined (r : Receiver) : Prop :=
  ∀ v, (r.stored 0).or (lookup (r.own :: r.prototypes) 0) = some v → v = .undefined

/-- An index of the array that `at` asks `index_get` for holds what it answers. -/
structure ReadsAt (r : Receiver) (i : Nat) : Prop where
  large : 2 ^ 32 - 1 ≤ i → r.value i = .undefined
  deleted : i < 2 ^ 32 - 1 → ¬ Deleted r i
  inherits : i < 2 ^ 32 - 1 → r.Inherits i →
    r.value i = (lookup (r.own :: r.prototypes) i).getD .undefined

/-- When a call answers as the reference scan. A misjudged index has to lie behind a match. -/
def ScansAlike (c : Contents) (r : Receiver) : Search → Prop
  | .indexOf search from_ => ∀ i, from_.place.relative r.len ≤ i → i < r.len →
      Missed c r search (EqualAt c search) i ∨ Phantom c r search (EqualAt c search) i →
      ∃ j < i, from_.place.relative r.len ≤ j ∧ Matched c r search (EqualAt c search) j
  | .lastIndexOf search from_ => ∀ i < r.len,
      (Argument.AtMost r.len i from_ →
        Missed c r search (EqualAt c search) i ∨ Phantom c r search (EqualAt c search) i →
        ∃ j > i, j < r.len ∧ Argument.AtMost r.len j from_ ∧
          Matched c r search (EqualAt c search) j) ∧
      (Argument.Covers r.len i from_ → ¬ Argument.AtMost r.len i from_ →
        ¬ Matched c r search (EqualAt c search) i ∧ ¬ Phantom c r search (EqualAt c search) i)
  | .includes search from_ =>
    if from_.place.relative r.len < r.len then
      (∃ i, from_.place.relative r.len ≤ i ∧ i < r.len ∧ Matched c r search (SameAt c search) i) ∨
      ((∃ i, from_.place.relative r.len ≤ i ∧ i < r.len ∧ Phantom c r search (SameAt c search) i) ↔
        ∃ i, from_.place.relative r.len ≤ i ∧ i < r.len ∧ Missed c r search (SameAt c search) i)
    else search = .undefined → 0 < r.len → r.own.object.kind = .array ∨ r.Within (r.len - 1)
  | .at index =>
    match index.place.fromEnd r.len with
    | .first => 0 < r.len → r.FirstUndefined
    | .at z => 0 < r.len → z < r.len → if 0 ≤ z then ReadsAt r z.toNat else r.FirstUndefined
    | .last => True

/-! ## §5 Scanning -/

def Hits (hit : JsValue → Bool) (entries : List (Nat × JsValue)) (i : Nat) : Prop :=
  ∃ v, (i, v) ∈ entries ∧ hit v = true

section Entries

variable {hit : JsValue → Bool} {entries : List (Nat × JsValue)} {k i : Nat} {u : JsValue}

theorem hits_cons : Hits hit ((k, u) :: entries) i ↔ i = k ∧ hit u = true ∨ Hits hit entries i := by
  constructor
  · rintro ⟨v, hmem, hhit⟩
    rcases List.mem_cons.mp hmem with heq | hmem
    · cases heq
      exact .inl ⟨rfl, hhit⟩
    · exact .inr ⟨v, hmem, hhit⟩
  · rintro (⟨rfl, hhit⟩ | ⟨v, hmem, hhit⟩)
    · exact ⟨u, List.mem_cons_self, hhit⟩
    · exact ⟨v, List.mem_cons_of_mem _ hmem, hhit⟩

theorem first_hits_cons {before : Nat → Nat → Prop} {P : Nat → Prop} {answer : Option Nat}
    (hnot : ¬ (P k ∧ hit u = true)) (h : First before (fun i => P i ∧ Hits hit entries i) answer) :
    First before (fun i => P i ∧ Hits hit ((k, u) :: entries) i) answer := by
  refine h.of_iff fun i => and_congr_right fun hP => ?_
  rw [hits_cons, or_iff_right]
  rintro ⟨rfl, hhit⟩
  exact hnot ⟨hP, hhit⟩

theorem first_hits_self {before : Nat → Nat → Prop} {P : Nat → Prop} (hP : P k)
    (hhit : hit u = true) (hself : ¬ before k k) (hbehind : ∀ e ∈ entries, ¬ before e.1 k) :
    First before (fun i => P i ∧ Hits hit ((k, u) :: entries) i) (some k) := by
  refine ⟨⟨hP, u, List.mem_cons_self, hhit⟩, ?_⟩
  rintro j hj ⟨-, v, hmem, -⟩
  rcases List.mem_cons.mp hmem with heq | hmem
  · cases heq
    exact hself hj
  · exact hbehind _ hmem hj

theorem first_scanEntries (start len : ℤ) (hsorted : entries.Pairwise fun a b => a.1 < b.1) :
    First (· < ·) (fun i : Nat => (start ≤ i ∧ i < len) ∧ Hits hit entries i)
      (scanEntries hit start len entries) := by
  induction entries with
  | nil =>
    rintro i ⟨-, v, hmem, -⟩
    cases hmem
  | cons e entries ih =>
    obtain ⟨k, u⟩ := e
    obtain ⟨hbehind, hsorted⟩ := List.pairwise_cons.mp hsorted
    have hrest := ih hsorted
    unfold scanEntries
    split
    case isTrue hbefore =>
      exact first_hits_cons (fun h => by omega) hrest
    case isFalse hfrom =>
      split
      case isTrue hend =>
        rintro i ⟨⟨-, hlt⟩, v, hmem, -⟩
        rcases List.mem_cons.mp hmem with heq | hmem
        · cases heq
          omega
        · have hgt := hbehind _ hmem
          dsimp only at hgt
          omega
      case isFalse hinside =>
        split
        case isTrue hhit =>
          exact first_hits_self ⟨by omega, by omega⟩ hhit (Nat.lt_irrefl k)
            fun _ hmem => Nat.not_lt.mpr (Nat.le_of_lt (hbehind _ hmem))
        case isFalse hmiss =>
          exact first_hits_cons (fun h => hmiss h.2) hrest

theorem first_scanEntriesDown (start len : ℤ) (hsorted : entries.Pairwise fun a b => b.1 < a.1) :
    First (· > ·) (fun i : Nat => ((i : ℤ) ≤ start ∧ i < len) ∧ Hits hit entries i)
      (scanEntriesDown hit start len entries) := by
  induction entries with
  | nil =>
    rintro i ⟨-, v, hmem, -⟩
    cases hmem
  | cons e entries ih =>
    obtain ⟨k, u⟩ := e
    obtain ⟨hbehind, hsorted⟩ := List.pairwise_cons.mp hsorted
    have hrest := ih hsorted
    unfold scanEntriesDown
    split
    case isTrue hout =>
      exact first_hits_cons (fun h => by omega) hrest
    case isFalse hin =>
      split
      case isTrue hhit =>
        exact first_hits_self ⟨by omega, by omega⟩ hhit (Nat.lt_irrefl k)
          fun _ hmem => Nat.not_lt.mpr (Nat.le_of_lt (hbehind _ hmem))
      case isFalse hmiss =>
        exact first_hits_cons (fun h => hmiss h.2) hrest

theorem countEntries_eq_none (start len : ℤ) (present : Nat)
    (hsorted : entries.Pairwise fun a b => a.1 < b.1) : countEntries hit start len present entries =
      none ↔ ∃ i : Nat, (start ≤ i ∧ i < len) ∧ Hits hit entries i := by
  induction entries generalizing present with
  | nil =>
    refine iff_of_false (fun h => by cases h) ?_
    rintro ⟨i, -, v, hmem, -⟩
    cases hmem
  | cons e entries ih =>
    obtain ⟨k, u⟩ := e
    obtain ⟨hbehind, hsorted⟩ := List.pairwise_cons.mp hsorted
    have hpass (hnot : ¬ ((start ≤ k ∧ (k : ℤ) < len) ∧ hit u = true)) :
        (∃ i : Nat, (start ≤ i ∧ i < len) ∧ Hits hit ((k, u) :: entries) i) ↔
          ∃ i : Nat, (start ≤ i ∧ i < len) ∧ Hits hit entries i := by
      refine exists_congr fun i => and_congr_right fun hrange => ?_
      rw [hits_cons, or_iff_right]
      rintro ⟨rfl, hhit⟩
      exact hnot ⟨hrange, hhit⟩
    unfold countEntries
    split
    case isTrue hbefore => rw [hpass fun h => by omega, ih present hsorted]
    case isFalse hfrom =>
      split
      case isTrue hend =>
        refine iff_of_false (fun h => by cases h) ?_
        rintro ⟨i, ⟨-, hlt⟩, v, hmem, -⟩
        rcases List.mem_cons.mp hmem with heq | hmem
        · cases heq
          omega
        · have hgt := hbehind _ hmem
          dsimp only at hgt
          omega
      case isFalse hinside =>
        split
        case isTrue hhit =>
          exact iff_of_true rfl ⟨k, ⟨by omega, by omega⟩, u, List.mem_cons_self, hhit⟩
        case isFalse hmiss => rw [hpass fun h => hmiss h.2, ih (present + 1) hsorted]

theorem countEntries_eq_some (start len : ℤ) {present n : Nat}
    (hsorted : entries.Pairwise fun a b => a.1 < b.1)
    (h : countEntries hit start len present entries = some n) :
    n = present + (entries.filter fun e => decide (start ≤ e.1 ∧ e.1 < len)).length := by
  induction entries generalizing present with
  | nil => exact (Option.some.inj h).symm
  | cons e entries ih =>
    obtain ⟨k, u⟩ := e
    obtain ⟨hbehind, hsorted⟩ := List.pairwise_cons.mp hsorted
    unfold countEntries at h
    rw [List.filter_cons]
    split at h
    case isTrue hbefore =>
      rw [if_neg (by rw [decide_eq_true_eq]; omega)]
      exact ih hsorted h
    case isFalse hfrom =>
      split at h
      case isTrue hend =>
        have hnone : entries.filter (fun e => decide (start ≤ e.1 ∧ e.1 < len)) = [] := by
          rw [List.filter_eq_nil_iff]
          intro e he
          have hgt := hbehind e he
          rw [decide_eq_true_eq]
          dsimp only at hgt
          omega
        rw [if_neg (by rw [decide_eq_true_eq]; omega), hnone]
        exact (Option.some.inj h).symm
      case isFalse hinside =>
        split at h
        case isTrue hhit => cases h
        case isFalse hmiss =>
          rw [if_pos (by rw [decide_eq_true_eq]; omega), ih hsorted h, List.length_cons]
          omega

end Entries

theorem length_lt_iff {keys : List Nat} (hnodup : keys.Nodup) {a b : Nat}
    (hkeys : ∀ k ∈ keys, a ≤ k ∧ k < b) :
    keys.length < b - a ↔ ∃ i, a ≤ i ∧ i < b ∧ i ∉ keys := by
  have hsub : keys.toFinset ⊆ Finset.Ico a b := by
    intro k hk
    rw [Finset.mem_Ico]
    exact hkeys k (List.mem_toFinset.mp hk)
  rw [← Nat.card_Ico, ← List.toFinset_card_of_nodup hnodup]
  constructor
  · intro hlt
    obtain ⟨i, hi, hnot⟩ := Finset.exists_mem_notMem_of_card_lt_card hlt
    rw [Finset.mem_Ico] at hi
    exact ⟨i, hi.1, hi.2, fun hmem => hnot (List.mem_toFinset.mpr hmem)⟩
  · rintro ⟨i, hle, hlt, hnot⟩
    refine Finset.card_lt_card ⟨hsub, fun hsup => hnot ?_⟩
    exact List.mem_toFinset.mp (hsup (Finset.mem_Ico.mpr ⟨hle, hlt⟩))

section Generic

variable (r : Receiver) (hit : JsValue × Bool → Bool)

theorem first_scanUp (count i : Nat) :
    First (· < ·) (fun j => i ≤ j ∧ j < i + count ∧ hit (indexGet r j) = true)
      (scanUp r hit count i) := by
  induction count generalizing i with
  | zero =>
    rintro j ⟨hle, hlt, -⟩
    omega
  | succ count ih =>
    unfold scanUp
    split
    case isTrue hhit =>
      refine ⟨⟨Nat.le_refl i, by omega, hhit⟩, ?_⟩
      rintro j hj ⟨hle, -, -⟩
      exact absurd hj (Nat.not_lt.mpr hle)
    case isFalse hmiss =>
      have hiff (j : Nat) : (i ≤ j ∧ j < i + (count + 1) ∧ hit (indexGet r j) = true) ↔
          i + 1 ≤ j ∧ j < i + 1 + count ∧ hit (indexGet r j) = true := by
        constructor
        · rintro ⟨hle, hlt, hhit⟩
          have hne : i ≠ j := by
            rintro rfl
            exact hmiss hhit
          exact ⟨by omega, by omega, hhit⟩
        · rintro ⟨hle, hlt, hhit⟩
          exact ⟨by omega, by omega, hhit⟩
      exact (ih (i + 1)).of_iff fun j => (hiff j).symm

theorem first_scanDown (i : Nat) :
    First (· > ·) (fun j => j ≤ i ∧ hit (indexGet r j) = true) (scanDown r hit i) := by
  induction i with
  | zero =>
    unfold scanDown
    split
    case isTrue hhit =>
      refine ⟨⟨Nat.le_refl 0, hhit⟩, ?_⟩
      rintro j hj ⟨hle, -⟩
      exact absurd hj (Nat.not_lt.mpr hle)
    case isFalse hmiss =>
      rintro j ⟨hle, hhit⟩
      obtain rfl := Nat.le_zero.mp hle
      exact hmiss hhit
  | succ i ih =>
    unfold scanDown
    split
    case isTrue hhit =>
      refine ⟨⟨Nat.le_refl _, hhit⟩, ?_⟩
      rintro j hj ⟨hle, -⟩
      exact absurd hj (Nat.not_lt.mpr hle)
    case isFalse hmiss =>
      have hiff (j : Nat) : (j ≤ i + 1 ∧ hit (indexGet r j) = true) ↔
          j ≤ i ∧ hit (indexGet r j) = true := by
        constructor
        · rintro ⟨hle, hhit⟩
          have hne : j ≠ i + 1 := by
            rintro rfl
            exact hmiss hhit
          exact ⟨by omega, hhit⟩
        · rintro ⟨hle, hhit⟩
          exact ⟨by omega, hhit⟩
      exact ih.of_iff fun j => (hiff j).symm

end Generic

/-! ## §6 Where the methods look -/

/-- The methods find an element here: an array has it in its own store, another receiver answers it
below its visible extent. -/
def FoundAt (r : Receiver) (hit : JsValue → Bool) (i : Nat) : Prop :=
  i < r.len ∧
    if r.own.object.kind = .array then ∃ v ∈ r.own.object.getElement i, hit v = true
    else i < visibleExtent r ∧ (indexGet r i).2 = true ∧ hit (indexGet r i).1 = true

def MissingAt (r : Receiver) (i : Nat) : Prop :=
  i < r.len ∧
    if r.own.object.kind = .array then r.own.object.getElement i = none
    else visibleExtent r ≤ i ∨ (indexGet r i).2 = false

section Extent

variable {e i n : Nat}

theorem lt_foldl_keys (keys : List (Nat × JsValue)) :
    i < keys.foldl (fun e k => if k.1 < 10 ^ 10 then max e (k.1 + 1) else e) e ↔
      i < e ∨ ∃ k ∈ keys, k.1 < 10 ^ 10 ∧ i ≤ k.1 := by
  induction keys generalizing e with
  | nil => simp
  | cons k keys ih =>
    rw [List.foldl_cons, ih]
    simp only [List.mem_cons, exists_eq_or_imp]
    split
    case isTrue hkey =>
      rw [lt_max_iff, Nat.lt_succ_iff, or_assoc]
      simp only [hkey, true_and]
    case isFalse hkey => simp only [hkey, false_and, false_or]

theorem foldl_keys_lt (keys : List (Nat × JsValue)) :
    keys.foldl (fun e k => if k.1 < 10 ^ 10 then max e (k.1 + 1) else e) e < n ↔
      e < n ∧ ∀ k ∈ keys, k.1 < 10 ^ 10 → k.1 + 1 < n := by
  induction keys generalizing e with
  | nil => simp
  | cons k keys ih =>
    rw [List.foldl_cons, ih]
    simp only [List.mem_cons, forall_eq_or_imp]
    split
    case isTrue hkey =>
      rw [max_lt_iff, and_assoc]
      simp only [hkey, true_implies]
    case isFalse hkey => simp only [hkey, false_implies, true_and]

theorem lt_extentFrom (chain : List Holder) : i < extentFrom e chain ↔
    i < e ∨ ∃ front h behind, chain = front ++ h :: behind ∧ Measured e front ∧
      ∃ k ∈ h.keys, k.1 < 10 ^ 10 ∧ i ≤ k.1 := by
  induction chain generalizing e with
  | nil =>
    refine (or_iff_left ?_).symm
    rintro ⟨front, h, behind, hnil, -⟩
    cases front <;> cases hnil
  | cons h chain ih =>
    unfold extentFrom
    split
    case isTrue hcap =>
      refine (or_iff_left ?_).symm
      rintro ⟨front, h', behind, -, hmeasured, -⟩
      exact absurd hmeasured.1 (Nat.not_lt.mpr hcap)
    case isFalse hbelow =>
      rw [ih, lt_foldl_keys, or_assoc]
      refine or_congr_right ⟨?_, ?_⟩
      · rintro (hkey | ⟨front, h', behind, rfl, hmeasured, hkey⟩)
        · exact ⟨[], h, chain, rfl, ⟨Nat.lt_of_not_le hbelow, by simp⟩, hkey⟩
        · obtain ⟨hcap, hkeys⟩ := (foldl_keys_lt h.keys).mp hmeasured.1
          refine ⟨h :: front, h', behind, rfl, ⟨hcap, fun g hg => ?_⟩, hkey⟩
          rcases List.mem_cons.mp hg with rfl | hg
          · exact hkeys
          · exact hmeasured.2 g hg
      · rintro ⟨front, h', behind, hchain, hmeasured, hkey⟩
        cases front with
        | nil =>
          cases hchain
          exact .inl hkey
        | cons g front =>
          cases hchain
          refine .inr ⟨front, h', behind, rfl, ⟨(foldl_keys_lt _).mpr ?_, fun g' hg' => ?_⟩, hkey⟩
          · exact ⟨hmeasured.1, hmeasured.2 h List.mem_cons_self⟩
          · exact hmeasured.2 g' (List.mem_cons_of_mem _ hg')

end Extent

section Receiver

variable {r : Receiver} {i : Nat} {v : JsValue}

theorem lt_visibleExtent (hother : r.own.object.kind ≠ .array) :
    i < visibleExtent r ↔ r.Within i := by
  unfold visibleExtent
  rw [if_neg hother, lt_extentFrom]
  rfl

theorem Holder.cell_eq_some {h : Holder} (hcell : h.cell i = some v) :
    v.isHole = false ∧ ∃ k ∈ h.keys, k.1 = i := by
  obtain ⟨hlookup, hhole⟩ := Option.filter_eq_some_iff.mp hcell
  refine ⟨by simpa using hhole, (i, v), ?_, rfl⟩
  obtain ⟨front, behind, hkeys, -⟩ := List.lookup_eq_some_iff.mp hlookup
  rw [hkeys]
  exact List.mem_append_right _ List.mem_cons_self

theorem lookup_eq_some {chain : List Holder} (h : lookup chain i = some v) :
    ∃ g ∈ chain, g.cell i = some v := List.exists_of_findSome?_eq_some h

theorem stored_eq_some (hother : r.own.object.kind ≠ .array) (h : r.stored i = some v) :
    v.isHole = false ∧ i < r.own.object.elements.length := by
  unfold Receiver.stored JsObject.getElement at h
  split at h
  case isTrue =>
    obtain ⟨hget, hhole⟩ := Option.filter_eq_some_iff.mp h
    exact ⟨by simpa using hhole, (List.getElem?_eq_some_iff.mp hget).1⟩
  case isFalse => cases h

/-- **The visible extent covers the cells** of a receiver whose elements and keys are below the cap. -/
theorem Receiver.within_of_cell (hother : r.own.object.kind ≠ .array)
    (hcap : Measured r.own.object.elements.length (r.own :: r.prototypes)) (hi : i < 2 ^ 32 - 1)
    (h : (r.stored i).or (lookup (r.own :: r.prototypes) i) = some v) : r.Within i := by
  rcases Option.or_eq_some_iff.mp h with hstored | ⟨-, hkey⟩
  · exact .inl (stored_eq_some hother hstored).2
  · obtain ⟨g, hg, hcell⟩ := lookup_eq_some hkey
    obtain ⟨-, k, hk, rfl⟩ := Holder.cell_eq_some hcell
    obtain ⟨front, behind, hchain⟩ := List.append_of_mem hg
    refine .inr ⟨front, g, behind, hchain, ⟨hcap.1, fun g' hg' => hcap.2 g' ?_⟩, k, hk, ?_, ?_⟩
    · rw [hchain]
      exact List.mem_append_left _ hg'
    · omega
    · exact Nat.le_refl _

/-- What a method finds at an index. -/
def Receiver.seen (r : Receiver) (i : Nat) : Option JsValue :=
  if r.own.object.kind = .array then present (r.own.object.getElement i)
  else if i < visibleExtent r ∧ (indexGet r i).2 = true then some (indexGet r i).1 else none

theorem indexGet_of_lt (hother : r.own.object.kind ≠ .array) (hi : i < 2 ^ 32 - 1) :
    indexGet r i =
      (((r.stored i).or (lookup (r.own :: r.prototypes) i)).getD .undefined,
        ((r.stored i).or (lookup (r.own :: r.prototypes) i)).isSome) := by
  unfold indexGet
  rw [if_neg (by omega)]
  cases hstored : r.stored i with
  | some v => simp [(stored_eq_some hother hstored).1]
  | none =>
    cases hkey : lookup (r.own :: r.prototypes) i with
    | none => rfl
    | some v =>
      obtain ⟨g, -, hcell⟩ := lookup_eq_some hkey
      simp [(Holder.cell_eq_some hcell).1]

theorem seen_of_within (hother : r.own.object.kind ≠ .array) (hi : i < 2 ^ 32 - 1)
    (hwithin : r.Within i) : r.seen i = (r.stored i).or (lookup (r.own :: r.prototypes) i) := by
  unfold Receiver.seen
  rw [if_neg hother, indexGet_of_lt hother hi]
  simp only [(lt_visibleExtent hother).mpr hwithin, true_and]
  cases (r.stored i).or (lookup (r.own :: r.prototypes) i) <;> rfl

theorem present_getElement (h : Holder) (hindexed : h.indexed = true) :
    (∃ v, present (h.object.getElement i) = some v) ↔ h.Stores i := by
  unfold Holder.Stores
  cases h.object.getElement i with
  | none => simp [hindexed]
  | some u => cases hhole : u.isHole <;> simp [present_some, hindexed, hhole]

theorem indexed_of_array (harray : r.own.object.kind = .array) : r.own.indexed = true := by
  unfold Holder.indexed
  rw [harray]
  rfl

theorem seen_of_hidden (h : Hidden r i) : r.seen i = none := by
  unfold Receiver.seen
  cases h with
  | notOwn harray hown =>
    rw [if_pos harray, ← Option.not_isSome_iff_eq_none, Option.isSome_iff_exists]
    exact fun hsome => hown ((present_getElement r.own (indexed_of_array harray)).mp hsome)
  | large hother hlarge =>
    rw [if_neg hother, if_neg]
    rintro ⟨-, hfound⟩
    unfold indexGet at hfound
    rw [if_pos (by omega)] at hfound
    cases hfound
  | outside hother houtside =>
    rw [if_neg hother, if_neg]
    exact fun hseen => houtside ((lt_visibleExtent hother).mp hseen.1)

theorem seen_of_shadowed (h : Shadowed r i) : r.seen i = lookup (r.own :: r.prototypes) i := by
  rw [seen_of_within h.1 h.2.1 h.2.2.1, h.2.2.2.1, Option.none_or]

theorem Shadowed.not_hidden (h : Shadowed r i) : ¬ Hidden r i := by
  rintro (⟨harray, -⟩ | ⟨-, hlarge⟩ | ⟨-, houtside⟩)
  · exact h.1 harray
  · exact absurd h.2.1 (Nat.not_lt.mpr hlarge)
  · exact houtside h.2.2.1

theorem Deleted.hidden (h : Deleted r i) : Hidden r i := by
  refine .notOwn h.1 ?_
  rintro ⟨-, v, hget, hhole⟩
  rw [h.2] at hget
  cases hget
  cases hhole

theorem Holder.element_of_not_stores {h : Holder} (hnot : ¬ h.Stores i) :
    h.element i = h.cell i := by
  unfold Holder.element
  split
  case h_1 v hpresent =>
    refine absurd ?_ hnot
    split at hpresent
    case isTrue hindexed => exact (present_getElement h hindexed).mp ⟨v, hpresent⟩
    case isFalse => cases hpresent
  case h_2 => rfl

theorem Holder.element_of_get {h : Holder} (hindexed : h.indexed = true)
    (hget : h.object.getElement i = some v) (hhole : v.isHole = false) : h.element i = some v := by
  unfold Holder.element
  rw [if_pos hindexed, hget, present_some, if_neg (by rw [hhole]; exact Bool.false_ne_true)]

theorem findSome_element {chain : List Holder} (h : ¬ StoreFirst chain i) :
    chain.findSome? (fun h => h.element i) = lookup chain i := by
  induction chain with
  | nil => rfl
  | cons g chain ih =>
    obtain ⟨hstores, hbehind⟩ := not_or.mp h
    unfold lookup
    rw [List.findSome?_cons, List.findSome?_cons, Holder.element_of_not_stores hstores]
    cases hcell : g.cell i with
    | some v => rfl
    | none => exact ih fun hfirst => hbehind ⟨hcell, hfirst⟩

/-- Without an element in its own store and in front of the keys, a receiver has what is under
the first key. -/
theorem element_of_stored_none (hstored : r.stored i = none) (h : ¬ r.Inherits i) :
    r.element i = lookup (r.own :: r.prototypes) i := by
  change (r.own :: r.prototypes).findSome? (fun h => h.element i) = _
  refine findSome_element ?_
  rintro (⟨hindexed, v, hget, -⟩ | ⟨hcell, hfirst⟩)
  · unfold Receiver.stored at hstored
    rw [if_pos hindexed, hget] at hstored
    cases hstored
  · exact h ⟨hstored, hcell, hfirst⟩

theorem element_of_stored (hstored : r.stored i = some v) (hhole : v.isHole = false) :
    r.element i = some v := by
  unfold Receiver.stored at hstored
  split at hstored
  case isTrue hindexed =>
    unfold Receiver.element
    rw [List.findSome?_cons, Holder.element_of_get hindexed hstored hhole]
  case isFalse => cases hstored

/-- **What is neither hidden nor shadowed is seen as it is.** -/
theorem seen_eq_element (hhidden : ¬ Hidden r i) (hshadowed : ¬ Shadowed r i) :
    r.seen i = r.element i := by
  by_cases harray : r.own.object.kind = .array
  · have hindexed := indexed_of_array harray
    obtain ⟨-, v, hget, hhole⟩ := Classical.byContradiction fun hown => hhidden (.notOwn harray hown)
    have hstored : r.stored i = some v := by
      unfold Receiver.stored
      rw [if_pos hindexed, hget]
    unfold Receiver.seen
    rw [if_pos harray, element_of_stored hstored hhole, hget, present_some, hhole]
    rfl
  · have hi : i < 2 ^ 32 - 1 := Nat.lt_of_not_le fun hlarge => hhidden (.large harray hlarge)
    have hwithin : r.Within i := Classical.byContradiction fun h => hhidden (.outside harray h)
    rw [seen_of_within harray hi hwithin]
    cases hstored : r.stored i with
    | some v => exact (element_of_stored hstored (stored_eq_some harray hstored).1).symm
    | none =>
      rw [Option.none_or]
      exact (element_of_stored_none hstored fun hin => hshadowed ⟨harray, hi, hwithin, hin⟩).symm

theorem foundAt_iff {hit : JsValue → Bool} (hhole : hit .hole = false) :
    FoundAt r hit i ↔ i < r.len ∧ ∃ v, r.seen i = some v ∧ hit v = true := by
  unfold FoundAt Receiver.seen
  refine and_congr_right fun _ => ?_
  split
  case isTrue =>
    cases r.own.object.getElement i with
    | none => simp
    | some u =>
      rw [present_some]
      split
      case isTrue hu => cases u <;> simp_all [isHole]
      case isFalse => simp
  case isFalse =>
    split
    case isTrue hfound => simp [hfound]
    case isFalse hnot =>
      refine iff_of_false (fun h => hnot ⟨h.1, h.2.1⟩) ?_
      rintro ⟨v, hnone, -⟩
      cases hnone

theorem missingAt_iff : MissingAt r i ↔ i < r.len ∧ r.seen i = none ∧ ¬ Deleted r i := by
  unfold MissingAt Receiver.seen Deleted
  refine and_congr_right fun _ => ?_
  split
  case isTrue harray =>
    cases r.own.object.getElement i with
    | none => simp
    | some u => cases u <;> simp [present_some, isHole, harray]
  case isFalse hother =>
    simp only [hother, false_and, not_false_eq_true, and_true]
    split
    case isTrue hfound => simp [hfound.1, hfound.2]
    case isFalse hnot =>
      refine iff_of_true ?_ rfl
      by_cases hlt : i < visibleExtent r
      · exact .inr (Bool.eq_false_iff.mpr fun h => hnot ⟨hlt, h⟩)
      · exact .inl (Nat.le_of_not_lt hlt)

end Receiver

/-! ## §7 Judging an index -/

section Judging

variable {c : Contents} {r : Receiver} {search : JsValue} {ok : Option JsValue → Prop} {i : Nat}

/-- The method takes the index. -/
def Taken (c : Contents) (r : Receiver) (search : JsValue) (ok : Option JsValue → Prop) (i : Nat) :
    Prop := ok (r.seen i) ∧ ¬ TwoCells c search (r.seen i) ∧ ¬ Deleted r i

theorem not_twoCells_none : ¬ TwoCells c search none := by
  rintro ⟨a, b, -, hnone, -⟩
  cases hnone

theorem missed_iff : Missed c r search ok i ↔ ok (r.element i) ∧ ¬ Taken c r search ok i := by
  unfold Taken
  constructor
  · rintro (⟨h, hok, hnone⟩ | ⟨h, hok⟩ | ⟨h, hok, hkey⟩ | ⟨hhidden, hshadowed, hok, h⟩)
    · rw [seen_of_hidden h]
      exact ⟨hok, fun htaken => hnone htaken.1⟩
    · exact ⟨hok, fun htaken => htaken.2.2 h⟩
    · rw [seen_of_shadowed h]
      exact ⟨hok, fun htaken => htaken.2.1 (hkey htaken.1)⟩
    · rw [seen_eq_element hhidden hshadowed]
      exact ⟨hok, fun htaken => htaken.2.1 h⟩
  · rintro ⟨hok, hnot⟩
    by_cases hdeleted : Deleted r i
    · exact .deleted hdeleted hok
    by_cases hhidden : Hidden r i
    · rw [seen_of_hidden hhidden] at hnot
      exact .hidden hhidden hok fun hnone => hnot ⟨hnone, not_twoCells_none, hdeleted⟩
    by_cases hshadowed : Shadowed r i
    · rw [seen_of_shadowed hshadowed] at hnot
      refine .shadowed hshadowed hok fun hkey => ?_
      by_contra hcells
      exact hnot ⟨hkey, hcells, hdeleted⟩
    · rw [seen_eq_element hhidden hshadowed] at hnot
      refine .cells hhidden hshadowed hok ?_
      by_contra hcells
      exact hnot ⟨hok, hcells, hdeleted⟩

theorem phantom_iff : Phantom c r search ok i ↔ Taken c r search ok i ∧ ¬ ok (r.element i) := by
  unfold Taken
  constructor
  · rintro (⟨h, hdeleted, hok, hnone⟩ | ⟨h, hok, hkey, hcells⟩)
    · rw [seen_of_hidden h]
      exact ⟨⟨hnone, not_twoCells_none, hdeleted⟩, hok⟩
    · rw [seen_of_shadowed h]
      exact ⟨⟨hkey, hcells, fun hdeleted => h.not_hidden hdeleted.hidden⟩, hok⟩
  · rintro ⟨⟨hseen, hcells, hdeleted⟩, hok⟩
    by_cases hhidden : Hidden r i
    · rw [seen_of_hidden hhidden] at hseen
      exact .hidden hhidden hdeleted hok hseen
    by_cases hshadowed : Shadowed r i
    · rw [seen_of_shadowed hshadowed] at hseen hcells
      exact .shadowed hshadowed hok hseen hcells
    · rw [seen_eq_element hhidden hshadowed] at hseen
      exact absurd hseen hok

theorem matched_iff : Matched c r search ok i ↔ Taken c r search ok i ∧ ok (r.element i) := by
  unfold Matched
  rw [missed_iff]
  tauto

theorem strictEquals_iff (v : JsValue) : c.strictEquals search v = true ↔
    IsStrictlyEqual c search v ∧ ¬ TwoCells c search (some v) := by
  have hcells : TwoCells c search (some v) → ∃ a b, search = .bigint a ∧ v = .bigint b := by
    rintro ⟨a, b, hsearch, hv, -⟩
    exact ⟨a, b, hsearch, Option.some.inj hv⟩
  by_cases hbigint : ∃ a b, search = .bigint a ∧ v = .bigint b
  · obtain ⟨a, b, rfl, rfl⟩ := hbigint
    change decide (a = b) = true ↔ c.bigint a = c.bigint b ∧ _
    rw [decide_eq_true_eq]
    constructor
    · rintro rfl
      refine ⟨rfl, ?_⟩
      rintro ⟨a', b', ha, hb, hne, -⟩
      cases ha
      cases hb
      exact hne rfl
    · rintro ⟨heq, hnot⟩
      by_contra hne
      exact hnot ⟨a, b, rfl, rfl, hne, heq⟩
  · rw [and_iff_left fun h => hbigint (hcells h)]
    unfold Contents.strictEquals IsStrictlyEqual
    cases search <;> cases v <;> simp_all [numOf, asF64, asSmi]

theorem sameValueZero_iff (v : JsValue) : sameValueZero c search v = true ↔
    SameValueZero c search v ∧ ¬ TwoCells c search (some v) := by
  have hnan : (((search.asSmi.isNone && search.asF64.any fun x => Lib.Binary64.IsNaN x) &&
      (v.asF64.any fun x => Lib.Binary64.IsNaN x)) = true) ↔
      ∃ x y, search = .double x ∧ v = .double y ∧ Lib.Binary64.IsNaN x ∧ Lib.Binary64.IsNaN y := by
    cases search <;> cases v <;> simp [asF64, asSmi]
  unfold sameValueZero SameValueZero
  rw [Bool.or_eq_true, hnan, strictEquals_iff, or_comm, or_and_right]
  refine or_congr_right (and_iff_left_of_imp ?_).symm
  rintro ⟨x, y, rfl, rfl, -⟩ ⟨a, b, hsearch, -⟩
  cases hsearch

theorem foundAt_strict : FoundAt r (c.strictEquals search) i ↔
    i < r.len ∧ Taken c r search (EqualAt c search) i := by
  have hhole : c.strictEquals search .hole = false := by
    unfold Contents.strictEquals
    cases search <;> rfl
  rw [foundAt_iff hhole]
  refine and_congr_right fun _ => ?_
  unfold Taken EqualAt
  constructor
  · rintro ⟨v, hseen, hhit⟩
    obtain ⟨hequal, hcells⟩ := (strictEquals_iff v).mp hhit
    refine ⟨⟨v, hseen, hequal⟩, hseen ▸ hcells, fun hdeleted => ?_⟩
    rw [seen_of_hidden hdeleted.hidden] at hseen
    cases hseen
  · rintro ⟨⟨v, hseen, hequal⟩, hcells, -⟩
    exact ⟨v, hseen, (strictEquals_iff v).mpr ⟨hequal, hseen ▸ hcells⟩⟩

theorem sameValueZero_undefined : SameValueZero c search .undefined ↔ search = .undefined := by
  unfold SameValueZero IsStrictlyEqual
  cases search <;> simp [numOf, asF64, asSmi]

theorem taken_same : i < r.len ∧ Taken c r search (SameAt c search) i ↔
    FoundAt r (sameValueZero c search) i ∨ search = .undefined ∧ MissingAt r i := by
  have hhole : sameValueZero c search .hole = false := by
    rw [Bool.eq_false_iff, Ne, sameValueZero_iff]
    rintro ⟨hsame, -⟩
    revert hsame
    unfold SameValueZero IsStrictlyEqual
    cases search <;> simp [numOf, asF64, asSmi]
  rw [foundAt_iff hhole, missingAt_iff]
  unfold Taken SameAt
  cases hseen : r.seen i with
  | some v =>
    have hdeleted : ¬ Deleted r i := by
      intro hdeleted
      rw [seen_of_hidden hdeleted.hidden] at hseen
      cases hseen
    simp [hdeleted, sameValueZero_iff]
  | none =>
    simp only [Option.getD_none, sameValueZero_undefined, not_twoCells_none, not_false_eq_true,
      true_and, reduceCtorEq, false_and, exists_false, and_false, false_or]
    tauto

end Judging

/-! ## §8 The methods -/

section Methods

variable (c : Contents) (r : Receiver) (search : JsValue) (from_ : Argument)

theorem relativeIndex_number (x : Lib.Binary64.Double) (default : ℤ) :
    relativeIndex (.number x) r.len default =
      ((V12.StringMethods.toPlace x).relative r.len : ℤ) := by
  change clampIndex (toIndex x) r.len = _
  rw [V12.StringMethods.toIndex_eq,
    V12.StringMethods.clampIndex_toI64 (r.short.trans (by decide))]

theorem relativeIndex_zero : relativeIndex from_ r.len 0 = (from_.place.relative r.len : ℤ) := by
  cases from_ with
  | absent =>
    change (0 : ℤ) = (min 0 r.len : Nat)
    omega
  | undefined =>
    change (0 : ℤ) = (min 0 r.len : Nat)
    omega
  | number x => exact relativeIndex_number r x 0

theorem le_relativeIndex {i : Nat} (hi : i < r.len) :
    (i : ℤ) ≤ relativeIndex from_ r.len (r.len - 1) ↔ Argument.Covers r.len i from_ := by
  cases from_ with
  | absent => exact iff_of_true (by change (i : ℤ) ≤ r.len - 1; omega) trivial
  | undefined => exact iff_of_true (by change (i : ℤ) ≤ r.len - 1; omega) trivial
  | number x =>
    rw [relativeIndex_number]
    exact Nat.cast_le

theorem hits_iff (harray : r.own.object.kind = .array) (hit : JsValue → Bool) (i : Nat) :
    Hits hit r.own.object.elementsArray.denseEntries i ↔
      ∃ v ∈ r.own.object.getElement i, hit v = true := by
  unfold Hits JsObject.getElement
  rw [if_pos harray]
  simp only [ElementsStorage.mem_denseEntries r.own.built, Option.mem_def]

theorem first_arrayIndexOf : First (· < ·)
    (fun i => from_.place.relative r.len ≤ i ∧ FoundAt r (c.strictEquals search) i)
    (arrayIndexOf c r search from_) := by
  unfold arrayIndexOf FoundAt
  rw [relativeIndex_zero, max_eq_left (Int.natCast_nonneg _)]
  dsimp only
  split
  case isTrue harray =>
    refine (first_scanEntries _ _ (ElementsStorage.pairwise_denseEntries r.own.built)).of_iff ?_
    intro i
    rw [hits_iff r harray, Nat.cast_le, Nat.cast_lt, and_assoc]
  case isFalse hother =>
    refine (first_scanUp r _ _ _).of_iff fun i => ?_
    rw [Int.toNat_natCast, Bool.and_eq_true]
    constructor
    · rintro ⟨hle, hlt, hhit⟩
      exact ⟨hle, by omega, by omega, hhit⟩
    · rintro ⟨hle, hlen, hext, hhit⟩
      exact ⟨hle, by omega, hhit⟩

theorem first_arrayLastIndexOf : First (· > ·)
    (fun i => Argument.Covers r.len i from_ ∧ FoundAt r (c.strictEquals search) i)
    (arrayLastIndexOf c r search from_) := by
  unfold arrayLastIndexOf FoundAt
  dsimp only
  split
  case isTrue harray =>
    have hsorted := List.pairwise_reverse.mpr (ElementsStorage.pairwise_denseEntries r.own.built)
    refine (first_scanEntriesDown _ _ hsorted).of_iff fun i => ?_
    have hits : Hits (c.strictEquals search) r.own.object.elementsArray.denseEntries.reverse i ↔
        Hits (c.strictEquals search) r.own.object.elementsArray.denseEntries i := by
      unfold Hits
      simp only [List.mem_reverse]
    rw [hits, hits_iff r harray, Nat.cast_lt]
    constructor
    · rintro ⟨⟨hle, hlt⟩, hhit⟩
      exact ⟨(le_relativeIndex r from_ hlt).mp hle, hlt, hhit⟩
    · rintro ⟨hcovers, hlt, hhit⟩
      exact ⟨⟨(le_relativeIndex r from_ hlt).mpr hcovers, hlt⟩, hhit⟩
  case isFalse hother =>
    split
    case isTrue hempty =>
      rintro i ⟨-, hlt, hext, -⟩
      omega
    case isFalse hpos =>
      refine (first_scanDown r _ _).of_iff fun i => ?_
      rw [Bool.and_eq_true]
      have hstart : 0 ≤ relativeIndex from_ r.len (r.len - 1) := by
        cases from_ with
        | absent =>
          change (0 : ℤ) ≤ r.len - 1
          omega
        | undefined =>
          change (0 : ℤ) ≤ r.len - 1
          omega
        | number x =>
          rw [relativeIndex_number]
          exact Int.natCast_nonneg _
      constructor
      · rintro ⟨hle, hhit⟩
        have hlt : i < r.len := by omega
        exact ⟨(le_relativeIndex r from_ hlt).mp (by omega), hlt, by omega, hhit⟩
      · rintro ⟨hcovers, hlt, hext, hhit⟩
        have hle := (le_relativeIndex r from_ hlt).mpr hcovers
        exact ⟨by omega, hhit⟩

theorem count_lt_iff (harray : r.own.object.kind = .array) (start : Nat) :
    (r.own.object.elementsArray.denseEntries.filter fun e =>
        decide ((start : ℤ) ≤ e.1 ∧ (e.1 : ℤ) < r.len)).length < r.len - start ↔
      ∃ i, start ≤ i ∧ i < r.len ∧ r.own.object.getElement i = none := by
  have hsorted := ElementsStorage.pairwise_denseEntries r.own.built
  have hmem (i : Nat) (v : JsValue) : (i, v) ∈ r.own.object.elementsArray.denseEntries ↔
      r.own.object.getElement i = some v := by
    rw [ElementsStorage.mem_denseEntries r.own.built, JsObject.getElement, if_pos harray]
  generalize r.own.object.elementsArray.denseEntries = entries at hsorted hmem
  have hnodup : ((entries.filter fun e =>
      decide ((start : ℤ) ≤ e.1 ∧ (e.1 : ℤ) < r.len)).map Prod.fst).Nodup := by
    rw [List.Nodup, List.pairwise_map]
    exact (hsorted.filter _).imp Nat.ne_of_lt
  have hrange : ∀ k ∈ (entries.filter fun e =>
      decide ((start : ℤ) ≤ e.1 ∧ (e.1 : ℤ) < r.len)).map Prod.fst, start ≤ k ∧ k < r.len := by
    intro k hk
    obtain ⟨e, he, rfl⟩ := List.mem_map.mp hk
    have hinside := of_decide_eq_true (List.mem_filter.mp he).2
    omega
  rw [← List.length_map (f := Prod.fst), length_lt_iff hnodup hrange]
  refine exists_congr fun i => and_congr_right fun hle => and_congr_right fun hlt => ?_
  rw [Option.eq_none_iff_forall_ne_some, List.mem_map]
  constructor
  · intro hnot v hv
    refine hnot ⟨(i, v), List.mem_filter.mpr ⟨(hmem i v).mpr hv, ?_⟩, rfl⟩
    rw [decide_eq_true_eq]
    dsimp only
    omega
  · rintro hnone ⟨⟨k, v⟩, he, rfl⟩
    exact hnone v ((hmem k v).mp (List.mem_filter.mp he).1)

theorem arrayIncludes_array (harray : r.own.object.kind = .array) :
    arrayIncludes c r search from_ = true ↔ ∃ i, from_.place.relative r.len ≤ i ∧
      (FoundAt r (sameValueZero c search) i ∨ search = .undefined ∧ MissingAt r i) := by
  have hsorted := ElementsStorage.pairwise_denseEntries r.own.built
  unfold arrayIncludes FoundAt MissingAt
  rw [relativeIndex_zero, max_eq_left (Int.natCast_nonneg _)]
  generalize from_.place.relative r.len = start
  simp only [if_pos harray]
  cases hcount : countEntries (sameValueZero c search) start r.len 0
      r.own.object.elementsArray.denseEntries with
  | none =>
    obtain ⟨i, ⟨hle, hlt⟩, hhit⟩ := (countEntries_eq_none _ _ 0 hsorted).mp hcount
    exact iff_of_true rfl
      ⟨i, by omega, .inl ⟨by omega, (hits_iff r harray _ i).mp hhit⟩⟩
  | some n =>
    have hnone : ¬ ∃ i : Nat, ((start : ℤ) ≤ i ∧ (i : ℤ) < r.len) ∧
        Hits (sameValueZero c search) r.own.object.elementsArray.denseEntries i := by
      intro hexists
      rw [(countEntries_eq_none _ _ 0 hsorted).mpr hexists] at hcount
      cases hcount
    have hn := countEntries_eq_some _ _ hsorted hcount
    rw [Nat.zero_add] at hn
    dsimp only
    have hmissing : ((r.len : ℤ) - start > n) ↔
        ∃ i, start ≤ i ∧ i < r.len ∧ r.own.object.getElement i = none := by
      rw [← count_lt_iff r harray, ← hn]
      omega
    rw [Bool.and_eq_true, decide_eq_true_eq, decide_eq_true_eq, hmissing]
    constructor
    · rintro ⟨hundefined, i, hle, hlt, hget⟩
      exact ⟨i, hle, .inr ⟨hundefined, hlt, hget⟩⟩
    · rintro ⟨i, hle, ⟨hlt, hhit⟩ | ⟨hundefined, hlt, hget⟩⟩
      · exact absurd ⟨i, ⟨by omega, by omega⟩, (hits_iff r harray _ i).mpr hhit⟩ hnone
      · exact ⟨hundefined, i, hle, hlt, hget⟩

theorem arrayIncludes_other (hother : r.own.object.kind ≠ .array) :
    arrayIncludes c r search from_ = true ↔
      (∃ i, from_.place.relative r.len ≤ i ∧
        (FoundAt r (sameValueZero c search) i ∨ search = .undefined ∧ MissingAt r i)) ∨
      (search = .undefined ∧ visibleExtent r < r.len) := by
  unfold arrayIncludes FoundAt MissingAt
  rw [relativeIndex_zero, max_eq_left (Int.natCast_nonneg _)]
  generalize from_.place.relative r.len = start
  simp only [if_neg hother, Int.toNat_natCast]
  have hfirst := first_scanUp r
    (fun e => e.2 && sameValueZero c search e.1 || !e.2 && decide (search = .undefined))
    (min (visibleExtent r) r.len - start) start
  rw [Bool.or_eq_true, Bool.and_eq_true, decide_eq_true_eq, decide_eq_true_eq]
  have hcap : min (visibleExtent r) r.len < r.len ↔ visibleExtent r < r.len := by omega
  rw [hcap]
  constructor
  · rintro (hsome | hend)
    · obtain ⟨i, hi⟩ := Option.isSome_iff_exists.mp hsome
      rw [hi] at hfirst
      obtain ⟨hle, hlt, hhit⟩ := hfirst.1
      refine .inl ⟨i, hle, ?_⟩
      rw [Bool.or_eq_true, Bool.and_eq_true, Bool.and_eq_true, decide_eq_true_eq,
        Bool.not_eq_true'] at hhit
      rcases hhit with hhit | ⟨habsent, hundefined⟩
      · exact .inl ⟨by omega, by omega, hhit⟩
      · exact .inr ⟨hundefined, by omega, .inr habsent⟩
    · exact .inr hend
  · rintro (⟨i, hle, hcase⟩ | hend)
    · by_cases hext : i < visibleExtent r
      · left
        cases hscan : scanUp r _ (min (visibleExtent r) r.len - start) start with
        | some j => rfl
        | none =>
          rw [hscan] at hfirst
          refine absurd ⟨hle, ?_, ?_⟩ (hfirst i)
          · rcases hcase with ⟨hlt, -⟩ | ⟨-, hlt, -⟩ <;> omega
          · rw [Bool.or_eq_true, Bool.and_eq_true, Bool.and_eq_true, decide_eq_true_eq,
              Bool.not_eq_true']
            rcases hcase with ⟨-, -, hhit⟩ | ⟨hundefined, -, hbeyond | habsent⟩
            · exact .inl hhit
            · omega
            · exact .inr ⟨habsent, hundefined⟩
      · right
        rcases hcase with ⟨-, hlt, -⟩ | ⟨hundefined, hlt, -⟩
        · exact absurd hlt hext
        · exact ⟨hundefined, by omega⟩
    · exact .inr hend

theorem fromEnd_at (len : Nat) (z : ℤ) :
    Place.fromEnd len (.at z) = .at (if z < 0 then len + z else z) := by
  change (if z < 0 then Place.at (len + z) else .at z) = _
  split <;> rfl

theorem relative_at (len : Nat) (z : ℤ) :
    Place.relative len (.at z) = min (if z < 0 then (len : ℤ) + z else z).toNat len := by
  unfold Place.relative
  dsimp only
  split <;> omega

theorem firstUndefined_iff : (indexGet r 0).1 = .undefined ↔ r.FirstUndefined := by
  unfold indexGet Receiver.FirstUndefined
  rw [if_neg (by decide)]
  cases r.stored 0 with
  | some v => simp
  | none => cases lookup (r.own :: r.prototypes) 0 <;> simp

theorem element_ne_hole {i : Nat} {v : JsValue} (h : r.element i = some v) : v.isHole = false := by
  obtain ⟨g, -, hg⟩ := List.exists_of_findSome?_eq_some h
  unfold Holder.element at hg
  split at hg
  case h_1 u hpresent =>
    cases hg
    simpa using (Option.filter_eq_some_iff.mp hpresent).2
  case h_2 => exact (Holder.cell_eq_some hg).1

theorem value_ne_hole (i : Nat) : r.value i ≠ .hole := by
  unfold Receiver.value
  cases hget : r.element i with
  | none => exact fun h => by cases h
  | some v =>
    rintro rfl
    cases element_ne_hole r hget

theorem stored_hole {i : Nat} {v : JsValue} (hstored : r.stored i = some v) (hhole : v.isHole = true) :
    v = .hole ∧ Deleted r i := by
  have hv : v = .hole := by cases v <;> first | rfl | cases hhole
  subst hv
  have harray : r.own.object.kind = .array := by
    by_contra hother
    cases (stored_eq_some hother hstored).1
  unfold Receiver.stored at hstored
  rw [if_pos (indexed_of_array harray)] at hstored
  exact ⟨rfl, harray, hstored⟩

theorem indexGet_of_stored_none {i : Nat} (hi : i < 2 ^ 32 - 1) (hstored : r.stored i = none) :
    (indexGet r i).1 = (lookup (r.own :: r.prototypes) i).getD .undefined := by
  unfold indexGet
  rw [if_neg (by omega), hstored]
  cases lookup (r.own :: r.prototypes) i with
  | none => rfl
  | some v => rfl

theorem readsAt_iff (i : Nat) : (indexGet r i).1 = r.value i ↔ ReadsAt r i := by
  by_cases hlarge : 2 ^ 32 - 1 ≤ i
  · have hget : indexGet r i = (.undefined, false) := if_pos (by omega)
    rw [hget]
    exact ⟨fun h => ⟨fun _ => h.symm, fun hi => by omega, fun hi => by omega⟩,
      fun h => (h.large hlarge).symm⟩
  cases hstored : r.stored i with
  | some v =>
    unfold indexGet
    rw [if_neg (by omega), hstored]
    dsimp only
    cases hhole : v.isHole with
    | true =>
      obtain ⟨rfl, hdeleted⟩ := stored_hole r hstored hhole
      exact iff_of_false (value_ne_hole r i).symm fun h => h.deleted (by omega) hdeleted
    | false =>
      have hvalue : r.value i = v := by
        unfold Receiver.value
        rw [element_of_stored hstored hhole]
        rfl
      refine iff_of_true hvalue.symm ⟨fun h => absurd h hlarge, fun _ hdeleted => ?_, ?_⟩
      · unfold Receiver.stored at hstored
        rw [if_pos (indexed_of_array hdeleted.1), hdeleted.2] at hstored
        cases hstored
        cases hhole
      · intro _ hinherits
        rw [hinherits.1] at hstored
        cases hstored
  | none =>
    have hdeleted : ¬ Deleted r i := by
      intro h
      unfold Receiver.stored at hstored
      rw [if_pos (indexed_of_array h.1), h.2] at hstored
      cases hstored
    rw [indexGet_of_stored_none r (by omega) hstored]
    by_cases hinherits : r.Inherits i
    · exact ⟨fun h => ⟨fun hi => absurd hi hlarge, fun _ => hdeleted, fun _ _ => h.symm⟩,
        fun h => (h.inherits (by omega) hinherits).symm⟩
    · refine iff_of_true ?_ ⟨fun hi => absurd hi hlarge, fun _ => hdeleted, fun _ h => ?_⟩
      · unfold Receiver.value
        rw [element_of_stored_none hstored hinherits]
      · exact absurd h hinherits

theorem arrayAt_eq_iff (index : Argument) :
    arrayAt r index = r.valueAt (index.place.fromEnd r.len) ↔ ScansAlike c r (.at index) := by
  have hat (z : ℤ) : (if 0 ≤ z then ReadsAt r z.toNat else r.FirstUndefined) ↔
      (indexGet r z.toNat).1 = if 0 ≤ z then r.value z.toNat else .undefined := by
    split
    case isTrue => exact (readsAt_iff r _).symm
    case isFalse hneg =>
      rw [Int.toNat_of_nonpos (by omega)]
      exact (firstUndefined_iff r).symm
  unfold arrayAt ScansAlike
  rw [relativeIndex_zero]
  dsimp only
  generalize index.place = p
  rw [Int.toNat_natCast]
  cases p with
  | first =>
    change (if _ then _ else _) = JsValue.undefined ↔ _
    have hrelative : Place.relative r.len .first = 0 := rfl
    rw [hrelative]
    change _ ↔ (0 < r.len → r.FirstUndefined)
    rw [← firstUndefined_iff]
    by_cases hempty : r.len = 0
    · rw [if_pos (by omega)]
      exact iff_of_true rfl fun h => absurd hempty (Nat.ne_of_gt h)
    · rw [if_neg (by omega)]
      exact ⟨fun h _ => h, fun h => h (Nat.pos_of_ne_zero hempty)⟩
  | last =>
    have hrelative : Place.relative r.len .last = r.len := rfl
    rw [hrelative, if_pos (by omega)]
    exact iff_of_true rfl trivial
  | «at» z =>
    rw [fromEnd_at, relative_at]
    generalize (if z < 0 then (r.len : ℤ) + z else z) = k
    unfold Receiver.valueAt
    dsimp only
    rw [hat]
    by_cases hbehind : r.len ≤ k.toNat
    · rw [if_pos (by omega), if_neg (by omega)]
      exact iff_of_true rfl fun hpos hlt => by omega
    · have hlt : k < r.len := by omega
      have hpos : 0 < r.len := by omega
      rw [if_neg (by omega), Nat.min_eq_left (by omega)]
      simp only [hlt, hpos, and_true, true_implies]

theorem Argument.AtMost.covers {len i : Nat} (hi : i < len) (h : Argument.AtMost len i from_) :
    Argument.Covers len i from_ := by
  cases from_ with
  | absent => trivial
  | undefined => trivial
  | number x =>
    dsimp only [Argument.AtMost] at h
    dsimp only [Argument.Covers]
    generalize V12.StringMethods.toPlace x = p at h ⊢
    cases p with
    | first => exact h.elim
    | last => exact Nat.le_of_lt hi
    | «at» z =>
      rw [fromEnd_at] at h
      rw [relative_at]
      dsimp only at h
      omega

theorem Argument.AtMost.of_le {len i j : Nat} (hle : i ≤ j) (h : Argument.AtMost len j from_) :
    Argument.AtMost len i from_ := by
  cases from_ with
  | absent => trivial
  | undefined =>
    change j = 0 at h
    change i = 0
    omega
  | number x =>
    dsimp only [Argument.AtMost] at h ⊢
    generalize (V12.StringMethods.toPlace x).fromEnd len = p at h ⊢
    cases p with
    | first => exact h.elim
    | «at» z => exact le_trans (Int.ofNat_le.mpr hle) h
    | last => trivial

theorem holdsAt_iff (i : Nat) :
    HoldsAt c r search i ↔ i < r.len ∧ EqualAt c search (r.element i) := Iff.rfl

theorem indexOf_iff : Scans c r (.indexOf search from_) ↔
    ScansAlike c r (.indexOf search from_) := by
  refine (First.congr_iff lt_total (hasFirst_lt _) (first_arrayIndexOf c r search from_)).trans ?_
  rw [sameFirst_iff lt_total (fun _ _ _ => Nat.lt_trans) (hasFirst_lt _) (hasFirst_lt _)]
  unfold ScansAlike
  simp only [foundAt_strict, holdsAt_iff, missed_iff, phantom_iff, matched_iff]
  refine forall_congr' fun i => ?_
  constructor
  · intro h hle hlt hcase
    obtain ⟨j, hj, ⟨hle', hlt', htaken⟩, -, -, hok⟩ := h (by tauto)
    exact ⟨j, hj, hle', htaken, hok⟩
  · intro h hcase
    obtain ⟨j, hj, hle', htaken, hok⟩ := h (by tauto) (by tauto) (by tauto)
    have hlt : j < r.len := by
      have hi : i < r.len := by tauto
      omega
    exact ⟨j, hj, ⟨hle', hlt, htaken⟩, hle', hlt, hok⟩

theorem lastIndexOf_iff : Scans c r (.lastIndexOf search from_) ↔
    ScansAlike c r (.lastIndexOf search from_) := by
  refine (First.congr_iff gt_total (hasFirst_gt fun i hi => Nat.le_of_lt hi.2.1)
    (first_arrayLastIndexOf c r search from_)).trans ?_
  rw [sameFirst_iff gt_total (fun _ _ _ hij hjk => Nat.lt_trans hjk hij)
    (hasFirst_gt fun i hi => Nat.le_of_lt hi.2.1) (hasFirst_gt fun i hi => Nat.le_of_lt hi.2.1)]
  unfold ScansAlike
  simp only [foundAt_strict, holdsAt_iff, missed_iff, phantom_iff, matched_iff]
  refine forall_congr' fun i => ?_
  have hcovers (hi : i < r.len) := Argument.AtMost.covers from_ hi
  constructor
  · intro h hlt
    refine ⟨fun hatMost hcase => ?_, fun hcov hnot => ?_⟩
    · obtain ⟨j, hj, ⟨-, hlt', htaken⟩, hatMost', -, hok⟩ := h (by tauto)
      exact ⟨j, hj, hlt', hatMost', htaken, hok⟩
    · have hfree (htaken : Taken c r search (EqualAt c search) i) : False := by
        obtain ⟨j, hj, -, hatMost, -⟩ := h (.inl ⟨⟨hcov, hlt, htaken⟩, fun hheld => hnot hheld.1⟩)
        exact hnot (hatMost.of_le from_ (Nat.le_of_lt hj))
      exact ⟨fun hmatched => hfree hmatched.1, fun hphantom => hfree hphantom.1⟩
  · intro h hcase
    have hlt : i < r.len := by tauto
    obtain ⟨hinside, houtside⟩ := h hlt
    by_cases hatMost : Argument.AtMost r.len i from_
    · obtain ⟨j, hj, hlt', hatMost', htaken, hok⟩ := hinside hatMost (by tauto)
      exact ⟨j, hj, ⟨hatMost'.covers from_ hlt', hlt', htaken⟩, hatMost', hlt', hok⟩
    · rcases hcase with ⟨⟨hcov, -, htaken⟩, -⟩ | ⟨⟨hatMost', -⟩, -⟩
      · obtain ⟨hmatched, hphantom⟩ := houtside hcov hatMost
        exact absurd ⟨htaken, fun hok => hmatched ⟨htaken, hok⟩⟩ hphantom
      · exact absurd hatMost' hatMost

theorem includes_iff : Scans c r (.includes search from_) ↔
    ScansAlike c r (.includes search from_) := by
  have hother (hkind : r.own.object.kind ≠ .array) :
      visibleExtent r < r.len ↔ 0 < r.len ∧ ¬ r.Within (r.len - 1) := by
    rw [← lt_visibleExtent hkind]
    omega
  have hcode : arrayIncludes c r search from_ = true ↔
      (∃ i, from_.place.relative r.len ≤ i ∧ i < r.len ∧ Taken c r search (SameAt c search) i) ∨
      (search = .undefined ∧ r.own.object.kind ≠ .array ∧ 0 < r.len ∧ ¬ r.Within (r.len - 1)) := by
    by_cases harray : r.own.object.kind = .array
    · rw [arrayIncludes_array c r search from_ harray]
      simp only [taken_same, harray, ne_eq, not_true_eq_false, false_and, and_false, or_false]
    · rw [arrayIncludes_other c r search from_ harray, hother harray]
      simp only [taken_same, ne_eq, harray, not_false_eq_true, true_and]
  unfold Scans ScansAlike
  dsimp only
  rw [hcode]
  simp only [missed_iff, phantom_iff, matched_iff]
  split
  case isTrue hstart =>
    -- the last index is not seen, so an undefined search takes it
    have hlast : search = .undefined ∧ r.own.object.kind ≠ .array ∧ 0 < r.len ∧
        ¬ r.Within (r.len - 1) → ∃ i, from_.place.relative r.len ≤ i ∧ i < r.len ∧
          Taken c r search (SameAt c search) i := by
      rintro ⟨rfl, hkind, hpos, houtside⟩
      refine ⟨r.len - 1, by omega, by omega, ?_⟩
      unfold Taken SameAt
      rw [seen_of_hidden (.outside hkind houtside)]
      exact ⟨sameValueZero_undefined.mpr rfl, not_twoCells_none, fun h => hkind h.1⟩
    rw [or_iff_left_of_imp hlast]
    unfold SameAt Receiver.value
    constructor
    · intro h
      by_cases hmatch : ∃ i, from_.place.relative r.len ≤ i ∧ i < r.len ∧
          Taken c r search (fun u => SameValueZero c search (u.getD .undefined)) i ∧
          SameValueZero c search ((r.element i).getD .undefined)
      · exact .inl hmatch
      refine .inr ⟨?_, ?_⟩
      · rintro ⟨i, hle, hlt, htaken, -⟩
        obtain ⟨j, hle', hlt', hsame⟩ := h.mp ⟨i, hle, hlt, htaken⟩
        exact ⟨j, hle', hlt', hsame, fun htaken' => hmatch ⟨j, hle', hlt', htaken', hsame⟩⟩
      · rintro ⟨i, hle, hlt, hsame, -⟩
        obtain ⟨j, hle', hlt', htaken⟩ := h.mpr ⟨i, hle, hlt, hsame⟩
        exact ⟨j, hle', hlt', htaken, fun hsame' => hmatch ⟨j, hle', hlt', htaken, hsame'⟩⟩
    · rintro (⟨i, hle, hlt, htaken, hsame⟩ | h)
      · exact iff_of_true ⟨i, hle, hlt, htaken⟩ ⟨i, hle, hlt, hsame⟩
      · constructor
        · rintro ⟨i, hle, hlt, htaken⟩
          by_cases hsame : SameValueZero c search ((r.element i).getD .undefined)
          · exact ⟨i, hle, hlt, hsame⟩
          · obtain ⟨j, hle', hlt', hsame', -⟩ := h.mp ⟨i, hle, hlt, htaken, hsame⟩
            exact ⟨j, hle', hlt', hsame'⟩
        · rintro ⟨i, hle, hlt, hsame⟩
          by_cases htaken : Taken c r search (fun u => SameValueZero c search (u.getD .undefined)) i
          · exact ⟨i, hle, hlt, htaken⟩
          · obtain ⟨j, hle', hlt', htaken', -⟩ := h.mpr ⟨i, hle, hlt, hsame, htaken⟩
            exact ⟨j, hle', hlt', htaken'⟩
  case isFalse hstart =>
    have hempty (p : Nat → Prop) :
        ¬ ∃ i, from_.place.relative r.len ≤ i ∧ i < r.len ∧ p i := by
      rintro ⟨i, hle, hlt, -⟩
      omega
    rw [or_iff_right (hempty _), iff_false_right (hempty _)]
    constructor
    · intro h hundefined hpos
      by_cases harray : r.own.object.kind = .array
      · exact .inl harray
      · refine .inr ?_
        by_contra houtside
        exact h ⟨hundefined, harray, hpos, houtside⟩
    · rintro h ⟨hundefined, hkind, hpos, houtside⟩
      rcases h hundefined hpos with harray | hwithin
      · exact hkind harray
      · exact houtside hwithin

end Methods

theorem built_fresh (kind : Kind) : (JsObject.fresh kind).elementsArray.Built :=
  ⟨(fun u hu => by cases hu), Nat.zero_le _⟩

/-- `[null]`. -/
def oneElement : Receiver where
  own := ⟨(JsObject.fresh .array).write (.set 0 ⟨.null, trivial⟩),
    JsObject.built_write (built_fresh .array) _, []⟩
  prototypes := []
  len := 1
  short := by decide

end V12.ArrayMethods
