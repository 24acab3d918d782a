/-
V12.Heap.Elements — the element store of an array and its operations,
from `v12-heap/src/elements.rs`, with the number boxing of
`v12-heap/src/value.rs` they rest on.

A `Vec` is a list; the cached hash of a dictionary entry is left out. The
`as u32` casts of a length lose nothing: a flat vector never grows past
`ELEMENTS_TO_DICTIONARY_INDEX`.
-/
import V12.Heap.Object
import Mathlib.Algebra.Ring.Nat
import Mathlib.Algebra.Ring.Int.Defs

namespace V12.Heap

/-! ## §1 Boxed numbers -/

/-- `BOX_MASK`. -/
def BOX_MASK : BitVec 64 := 0xFFF8000000000000#64

/-- `QUIET_NAN_BITS`. -/
def QUIET_NAN_BITS : BitVec 64 := 0x7FF8000000000000#64

/-- `f64::from(i32)` as a bit pattern: sign, biased exponent and fraction of a
whole number below `2 ^ 53` in magnitude. -/
def f64OfInt (n : Int) : BitVec 64 :=
  if n = 0 then 0#64
  else
    let m := n.natAbs
    let e := Nat.log2 m
    let sign := if n < 0 then 2 ^ 63 else 0
    BitVec.ofNat 64 (sign + (1023 + e) * 2 ^ 52 + (m - 2 ^ e) * 2 ^ (52 - e))

/-- The quiet NaN, which is what `f64::NAN` is. -/
def f64NaN : BitVec 64 := QUIET_NAN_BITS

namespace JsValue

def SMI_MIN : Int := -2 ^ 30

def SMI_MAX : Int := 2 ^ 30 - 1

/-- `from_f64`: a double inside the box prefix becomes the quiet NaN. -/
def fromF64 (bits : BitVec 64) : JsValue :=
  if bits &&& BOX_MASK = BOX_MASK then .double QUIET_NAN_BITS else .double bits

/-- `from_i32_smi`. -/
def fromI32Smi (v : Int) : Option JsValue :=
  if SMI_MIN ≤ v ∧ v ≤ SMI_MAX then some (.smi v) else none

/-- `as_smi`. -/
def asSmi : JsValue → Option Int
  | .smi n => some n
  | _ => none

/-- `as_f64`. -/
def asF64 : JsValue → Option (BitVec 64)
  | .double bits => some bits
  | _ => none

end JsValue

open JsValue

/-! ## §2 The lattice -/

/-- `ELEMENTS_TO_DICTIONARY_INDEX`. -/
def ELEMENTS_TO_DICTIONARY_INDEX : Nat := 1024

/-- `MAX_FAST_ELEMENT_GAP`. -/
def MAX_FAST_ELEMENT_GAP : Nat := 64

inductive ElementsKind where
  | packedSmi | holeySmi | packedDouble | holeyDouble | packedObject | holeyObject | dictionary
  deriving DecidableEq, Repr

namespace ElementsKind

/-- `rank`: the place in the generalization order. -/
def rank : ElementsKind → Nat
  | .packedSmi => 0
  | .holeySmi => 1
  | .packedDouble => 2
  | .holeyDouble => 3
  | .packedObject => 4
  | .holeyObject => 5
  | .dictionary => 6

/-- `is_holey`. -/
def isHoley : ElementsKind → Bool
  | .holeySmi | .holeyDouble | .holeyObject => true
  | _ => false

/-- `is_dictionary`. -/
def isDictionary : ElementsKind → Bool
  | .dictionary => true
  | _ => false

/-- `to_holey`: the hole-bearing sibling of the same payload. -/
def toHoley : ElementsKind → ElementsKind
  | .packedSmi => .holeySmi
  | .packedDouble => .holeyDouble
  | .packedObject => .holeyObject
  | other => other

end ElementsKind

/-- `ValueClass`: a value as the write path sees it. -/
inductive ValueClass where
  | hole
  | smi (n : Int)
  | double (bits : BitVec 64)
  | other (v : JsValue)

/-- `smi_value`. -/
def smiValue (n : Int) : JsValue := (fromI32Smi n).getD (fromF64 (f64OfInt n))

/-- `ValueClass::to_value`. -/
def ValueClass.toValue : ValueClass → JsValue
  | .hole => .hole
  | .smi n => smiValue n
  | .double bits => fromF64 bits
  | .other v => v

/-- `classify`. -/
def classify (value : JsValue) : ValueClass :=
  if value.isHole then .hole
  else
    match value.asSmi with
    | some n => .smi n
    | none =>
      match value.asF64 with
      | some bits => .double bits
      | none => .other value

/-- `as_double`. -/
def asDouble (v : JsValue) : BitVec 64 :=
  match v.asF64 with
  | some bits => bits
  | none =>
    match v.asSmi with
    | some n => f64OfInt n
    | none => f64NaN

/-! ## §3 The dictionary -/

namespace ElementsDictionary

/-- `u32::saturating_add(1)`. -/
def saturatingSucc (index : Nat) : Nat := min (index + 1) (2 ^ 32 - 1)

/-- `ElementsDictionary::new`. -/
def new : ElementsDictionary := ⟨[], 0⟩

/-- `ElementsDictionary::insert`. -/
def insert (dict : ElementsDictionary) (index : Nat) (value : JsValue) : ElementsDictionary :=
  { entries := (index, value) :: dict.entries.filter fun e => e.1 ≠ index
    length := max dict.length (saturatingSucc index) }

/-- `ElementsDictionary::get`. -/
def get (dict : ElementsDictionary) (index : Nat) : Option JsValue := dict.entries.lookup index

def keys (dict : ElementsDictionary) : List Nat := dict.entries.map Prod.fst

/-- The dictionary arm of `ElementsArray::pop`. -/
def pop (dict : ElementsDictionary) : Option JsValue × ElementsDictionary :=
  if dict.length = 0 then (none, dict)
  else
    let last := dict.length - 1
    let rest := dict.entries.filter fun e => e.1 ≠ last
    (dict.get last, ⟨rest, (rest.map Prod.fst).max?.elim 0 saturatingSucc⟩)

end ElementsDictionary

/-- `dictionary_from_pairs`. -/
def dictionaryFromPairs (pairs : List (Nat × JsValue)) : ElementsStorage :=
  .dictionary (pairs.foldl (fun dict p => dict.insert p.1 p.2) ElementsDictionary.new)

/-! ## §4 Reading -/

namespace ElementsStorage

/-- `ElementsStorage::kind`. -/
def kind : ElementsStorage → ElementsKind
  | .packedSmi _ => .packedSmi
  | .holeySmi _ => .holeySmi
  | .packedDouble _ => .packedDouble
  | .holeyDouble _ => .holeyDouble
  | .packedObject _ => .packedObject
  | .holeyObject _ => .holeyObject
  | .dictionary _ => .dictionary

/-- `ElementsArray::len`. -/
def len : ElementsStorage → Nat
  | .packedSmi v => v.length
  | .packedDouble v => v.length
  | .holeySmi v | .holeyDouble v | .packedObject v | .holeyObject v => v.length
  | .dictionary dict => dict.length

/-- `fast_len`: a dictionary counts as empty. -/
def fastLen : ElementsStorage → Nat
  | .packedSmi v => v.length
  | .packedDouble v => v.length
  | .holeySmi v | .holeyDouble v | .packedObject v | .holeyObject v => v.length
  | .dictionary _ => 0

/-- `ElementsArray::get`, boxing what the packed number vectors hold. -/
def getBoxed (e : ElementsStorage) (index : Nat) : Option JsValue :=
  match e with
  | .packedSmi v => v[index]?.map smiValue
  | .holeySmi v => v[index]?.filter (fun u => !u.isHole)
  | .packedDouble v => v[index]?.map fromF64
  | .holeyDouble v => v[index]?.filter (fun u => !u.isHole)
  | .packedObject v => v[index]?
  | .holeyObject v => v[index]?.filter (fun u => !u.isHole)
  | .dictionary dict => dict.get index

/-! ## §5 Conversions -/

/-- The `(index, value)` pairs of a vector, holes left out. -/
def presentPairs (v : List JsValue) : List (Nat × JsValue) :=
  (v.zipIdx.filter fun p => !p.1.isHole).map fun p => (p.2, p.1)

/-- The `(index, value)` pairs of a vector. -/
def pairs (v : List JsValue) : List (Nat × JsValue) := v.zipIdx.map fun p => (p.2, p.1)

/-- `convert_storage`; the arms no plan asks for go to the dictionary. -/
def convertStorage (source : ElementsStorage) (target : ElementsKind) : ElementsStorage :=
  if source.kind = target then source
  else
    match source with
    | .packedSmi v =>
      match target with
      | .holeySmi => .holeySmi (v.map smiValue)
      | .packedDouble => .packedDouble (v.map f64OfInt)
      | .holeyDouble => .holeyDouble ((v.map f64OfInt).map fromF64)
      | .packedObject => .packedObject (v.map smiValue)
      | .holeyObject => .holeyObject (v.map smiValue)
      | _ => dictionaryFromPairs (pairs (v.map smiValue))
    | .holeySmi v =>
      match target with
      | .holeyDouble => .holeyDouble (v.map fun u => if u.isHole then u else fromF64 (asDouble u))
      | .holeyObject => .holeyObject v
      | _ => dictionaryFromPairs (presentPairs v)
    | .packedDouble v =>
      match target with
      | .holeyDouble => .holeyDouble (v.map fromF64)
      | .packedObject => .packedObject (v.map fromF64)
      | .holeyObject => .holeyObject (v.map fromF64)
      | _ => dictionaryFromPairs (pairs (v.map fromF64))
    | .holeyDouble v =>
      match target with
      | .holeyObject => .holeyObject v
      | _ => dictionaryFromPairs (presentPairs v)
    | .packedObject v =>
      match target with
      | .holeyObject => .holeyObject v
      | _ => dictionaryFromPairs (pairs v)
    | .holeyObject v => dictionaryFromPairs (presentPairs v)
    | .dictionary dict => .dictionary dict

/-- `fill_gaps`: holes up to `len`, on the holey rungs only. -/
def fillGaps (e : ElementsStorage) (len : Nat) : ElementsStorage :=
  match e with
  | .holeySmi v => .holeySmi (v ++ List.replicate (len - v.length) .hole)
  | .holeyDouble v => .holeyDouble (v ++ List.replicate (len - v.length) .hole)
  | .holeyObject v => .holeyObject (v ++ List.replicate (len - v.length) .hole)
  | other => other

/-! ## §6 Writing -/

/-- `put_at`. -/
def putAt {α : Type} (v : List α) (index : Nat) (item : α) : List α :=
  if index < v.length then v.set index item else v ++ [item]

/-- The `minimum` of `plan`: the lowest rung that admits the payload. -/
def minimumKind (current : ElementsKind) (cls : ValueClass) : ElementsKind :=
  match cls with
  | .hole => current.toHoley
  | .smi _ => current
  | .double _ => if current.isHoley then .holeyDouble else .packedDouble
  | .other _ => if current.isHoley then .holeyObject else .packedObject

/-- The end of `plan`: the join of the current rung and the minimum, holey where a gap
is to be filled. -/
def joinKind (current minimum : ElementsKind) (needsGapFill : Bool) : ElementsKind :=
  let result := if minimum.rank > current.rank then minimum else current
  -- a higher packed rung cannot hold the holes of the gap either
  if needsGapFill && !result.isDictionary && !result.isHoley then result.toHoley else result

/-- `plan`: the kind after the write, or `none` to escape to the dictionary. -/
def plan (e : ElementsStorage) (cls : ValueClass) (index : Nat) : Option ElementsKind :=
  let current := e.kind
  if current.isDictionary then some current
  else if index ≥ ELEMENTS_TO_DICTIONARY_INDEX ∨ index - e.len > MAX_FAST_ELEMENT_GAP then none
  else some (joinKind current (minimumKind current cls) (index > e.fastLen))

def insertDictionary (e : ElementsStorage) (index : Nat) (cls : ValueClass) : ElementsStorage :=
  match e with
  | .dictionary dict => .dictionary (dict.insert index cls.toValue)
  | other => other

/-- The last step of `set`: the store is on the planned rung, its gap filled. -/
def store (e : ElementsStorage) (index : Nat) (cls : ValueClass) : ElementsStorage :=
  match e, cls with
  | .dictionary dict, cls => insertDictionary (.dictionary dict) index cls
  | .packedSmi v, .smi n => .packedSmi (putAt v index n)
  | .holeySmi v, .smi n => .holeySmi (putAt v index (smiValue n))
  | .holeySmi v, .hole => .holeySmi (putAt v index .hole)
  | .packedDouble v, .double d => .packedDouble (putAt v index d)
  | .packedDouble v, .smi n => .packedDouble (putAt v index (f64OfInt n))
  | .holeyDouble v, .double d => .holeyDouble (putAt v index (fromF64 d))
  | .holeyDouble v, .smi n => .holeyDouble (putAt v index (fromF64 (f64OfInt n)))
  | .holeyDouble v, .hole => .holeyDouble (putAt v index .hole)
  | .packedObject v, cls => .packedObject (putAt v index cls.toValue)
  | .holeyObject v, cls => .holeyObject (putAt v index cls.toValue)
  -- a plan that disagrees with the store ends in the dictionary
  | e, cls => insertDictionary (convertStorage e .dictionary) index cls

/-- `ElementsArray::set`. -/
def set (e : ElementsStorage) (index : Nat) (value : JsValue) : ElementsStorage :=
  let cls := classify value
  let planned :=
    match e.plan cls index with
    | some kind => if kind ≠ e.kind then convertStorage e kind else e
    | none => convertStorage e .dictionary
  let filled := if index > planned.fastLen then planned.fillGaps index else planned
  filled.store index cls

/-- `ElementsArray::push`. -/
def push (e : ElementsStorage) (value : JsValue) : ElementsStorage := e.set e.len value

/-- `ElementsArray::pop`. -/
def pop (e : ElementsStorage) : Option JsValue × ElementsStorage :=
  match e with
  | .packedSmi v => (v.getLast?.map smiValue, .packedSmi v.dropLast)
  | .holeySmi v => (v.getLast?, .holeySmi v.dropLast)
  | .holeyDouble v => (v.getLast?, .holeyDouble v.dropLast)
  | .packedObject v => (v.getLast?, .packedObject v.dropLast)
  | .holeyObject v => (v.getLast?, .holeyObject v.dropLast)
  | .packedDouble v => (v.getLast?.map fromF64, .packedDouble v.dropLast)
  | .dictionary dict => (dict.pop.1, .dictionary dict.pop.2)

/-- `delete_element` on an array: a hole is written. -/
def delete (e : ElementsStorage) (index : Nat) : ElementsStorage := e.set index .hole

end ElementsStorage

end V12.Heap
