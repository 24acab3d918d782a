/-
V12.Engine.Collections — Map and Set, from `v12-engine/src/builtins/map.rs`,
with the iterators of `builtins/iterator.rs` and `forEach`.

The entries are in one vector: two elements an entry of a Map, one of a Set. A
removed entry is overwritten with holes. What the collections are for is a map
in the order of insertion under SameValueZero (§5).
-/
import V12.Interp.Equality
import V12.Lib.InsertionMap
import V12.Lib.Run

namespace V12.Collections

open V12.Heap V12.Heap.JsValue V12.Interp Lib Lib.Binary64

/-! ## §1 Entries -/

inductive Kind where
  | map | set
  deriving DecidableEq, Repr

/-- A value that a call can have for a key: an argument is never the hole. -/
def Key : Type := { v : JsValue // v.isHole = false }

/-- `stride`. -/
def stride : Kind → Nat
  | .map => 2
  | .set => 1

/-- `same_value_zero`. -/
def sameValueZero (a b : JsValue) : Bool :=
  match a.asF64, b.asF64 with
  | some x, some y => (IsNaN x && IsNaN y) || eq x y || (eq x 0#64 && eq y 0#64)
  | _, _ => a = b

def holds (key slot : JsValue) : Bool := !slot.isHole && sameValueZero slot key

/-- `store[i * step]`; no index is past the end. -/
def keySlot (step : Nat) (store : List JsValue) (i : Nat) : JsValue := store.getD (i * step) .hole

/-- `has`. -/
def has (step : Nat) (store : List JsValue) (key : JsValue) : Bool :=
  (List.range (store.length / step)).any fun i => holds key (keySlot step store i)

/-- `store[pos..pos + step].fill(hole)`. -/
def fillHoles (store : List JsValue) (pos step : Nat) : List JsValue :=
  store.take pos ++ List.replicate step .hole ++ store.drop (pos + step)

/-- `delete`. -/
def delete (step : Nat) (store : List JsValue) (key : JsValue) : List JsValue × Bool :=
  match (List.range (store.length / step)).find? fun i => holds key (keySlot step store i) with
  | some i => (fillHoles store (i * step) step, true)
  | none => (store, false)

/-! ## §2 Maps and sets -/

/-- `map_get`. -/
def mapGet (key : JsValue) : List JsValue → JsValue
  | k :: v :: rest => if holds key k then v else mapGet key rest
  | _ => .undefined

/-- The entries after `map_set`. -/
def mapSet (key value : JsValue) : List JsValue → List JsValue
  | k :: v :: rest => if holds key k then k :: value :: rest else k :: v :: mapSet key value rest
  | rest => rest ++ [key, value]

/-- The number of entries in `map_size`. -/
def mapCount : List JsValue → Nat
  | k :: _ :: rest => (if k.isHole then 0 else 1) + mapCount rest
  | _ => 0

/-- The entries after `map_clear`. -/
def mapClear : List JsValue → List JsValue
  | _ :: _ :: rest => .hole :: .hole :: mapClear rest
  | rest => rest

/-- The entries after `set_add`. -/
def setAdd (value : JsValue) (entries : List JsValue) : List JsValue :=
  if entries.any (holds value) then entries else entries ++ [value]

/-- The number of entries in `set_size`. -/
def setCount (entries : List JsValue) : Nat := (entries.filter fun v => !v.isHole).length

/-- The entries after `set_clear`. -/
def setClear (entries : List JsValue) : List JsValue := entries.map fun _ => .hole

/-- `smi_or_f64`, with its cast to `i32`. -/
def smiOrF64 (n : Nat) : JsValue :=
  (fromI32Smi (Int.bmod n (2 ^ 32))).getD (fromF64 (f64OfInt n))

/-! ## §3 Iteration -/

/-- The kinds of iterators of a collection; for a Set, `keys` is another name of `values`. -/
inductive IterKind where
  | keys | values | entries
  deriving DecidableEq, Repr

/-- An iterator with its index slot, and a call of `forEach` with its index until it ends. -/
inductive Cursor where
  | iterator (kind : IterKind) (index : JsValue)
  | forEach (index : Option Nat)

inductive Answer where
  | undefined
  | this
  | typeError
  | bool (b : Bool)
  | value (v : JsValue)
  /-- The number of the value returned. -/
  | number (x : Option (BitVec 64))
  | pair (a b : JsValue)
  | done
  deriving DecidableEq

/-- `source_len`. -/
def sourceLen : Kind → List JsValue → Nat
  | .map, store => store.length / 2
  | .set, store => store.length

/-- `source_elem`. -/
def sourceElem (store : List JsValue) (i : Nat) : JsValue := store.getD i .undefined

def entryAt (kind : Kind) (store : List JsValue) (i : Nat) : JsValue × JsValue :=
  match kind with
  | .map => (sourceElem store (2 * i), sourceElem store (2 * i + 1))
  | .set => (sourceElem store i, sourceElem store i)

def IterKind.answer (kind : Kind) (it : IterKind) (entry : JsValue × JsValue) : Answer :=
  match kind, it with
  | .map, .keys => .value entry.1
  | .map, .values | .set, .values | .set, .keys => .value entry.2
  | .map, .entries | .set, .entries => .pair entry.1 entry.2

def nextFull (kind : Kind) (store : List JsValue) (index : Nat) : Option Nat :=
  advance (fun i => (entryAt kind store i).1.isHole) (sourceLen kind store - index) index

/-- The index in the slot of an iterator, as `state` reads it. -/
def indexOf (index : JsValue) : Nat :=
  match index.asSmi with
  | some n => if 0 ≤ n then n.toNat else 0
  | none => 0

/-- `iterator_next`, and the loop of `run_collection_for_each` up to its next callback: the
callback gets the value before the key. -/
def Cursor.next (kind : Kind) (store : List JsValue) : Cursor → Cursor × Answer
  | .iterator it index =>
    match nextFull kind store (indexOf index) with
    | some i => (.iterator it (smiOrF64 (i + 1)), it.answer kind (entryAt kind store i))
    | none => (.iterator it (smiOrF64 SMI_MAX.toNat), .done)
  | .forEach none => (.forEach none, .done)
  | .forEach (some index) =>
    match nextFull kind store index with
    | some i => (.forEach (some (i + 1)), .pair (entryAt kind store i).2 (entryAt kind store i).1)
    | none => (.forEach none, .done)

/-! ## §4 Calls -/

/-- The calls on a collection and the cursors over it. `put` is `set` of a Map and `add` of a
Set, which has no value. -/
inductive Op where
  | put (key : Key) (value : JsValue)
  | get (key : Key)
  | has (key : Key)
  | delete (key : Key)
  | clear
  | size
  | iterate (it : IterKind)
  | forEach
  | next (cursor : Nat)

structure State where
  elements : List JsValue
  cursors : List Cursor

def State.empty : State := ⟨[], []⟩

def call (kind : Kind) (s : State) : Op → State × Answer
  | .put key value =>
    match kind with
    | .map => ({ s with elements := mapSet key.1 value s.elements }, .this)
    | .set => ({ s with elements := setAdd key.1 s.elements }, .this)
  | .get key =>
    match kind with
    | .map => (s, .value (mapGet key.1 s.elements))
    | .set => (s, .typeError)
  | .has key => (s, .bool (has (stride kind) s.elements key.1))
  | .delete key =>
    let (elements, found) := delete (stride kind) s.elements key.1
    ({ s with elements }, .bool found)
  | .clear =>
    match kind with
    | .map => ({ s with elements := mapClear s.elements }, .undefined)
    | .set => ({ s with elements := setClear s.elements }, .undefined)
  | .size =>
    match kind with
    | .map => (s, .number (numOf (smiOrF64 (mapCount s.elements))))
    | .set => (s, .number (numOf (smiOrF64 (setCount s.elements))))
  | .iterate it => ({ s with cursors := s.cursors ++ [.iterator it (smiOrF64 0)] }, .this)
  | .forEach => ({ s with cursors := s.cursors ++ [.forEach (some 0)] }, .this)
  | .next i =>
    match s.cursors[i]? with
    | none => (s, .undefined)
    | some cursor =>
      let (cursor', answer) := cursor.next kind s.elements
      ({ s with cursors := s.cursors.set i cursor' }, answer)

def answers (kind : Kind) : State → List Op → List Answer
  | _, [] => []
  | s, op :: ops => (call kind s op).2 :: answers kind (call kind s op).1 ops

/-! ## §5 What a collection is for -/

def SameValueZero (c : Contents) (a b : JsValue) : Bool :=
  match numOf a, numOf b with
  | some x, some y => (IsNaN x && IsNaN y) || eq x y
  | _, _ =>
    match a, b with
    | .string x, .string y => c.text x = c.text y
    | .bigint x, .bigint y => c.bigint x = c.bigint y
    | _, _ => a = b

abbrev Dictionary (c : Contents) : Type :=
  InsertionMap (fun a b : Key => SameValueZero c a.1 b.1) JsValue

/-- A cursor over it: what it answers with, and the time it has come to, until it has ended. -/
structure Place where
  answer : JsValue × JsValue → Answer
  time : Option Nat

structure Collection (c : Contents) where
  map : Dictionary c
  cursors : List Place

def Collection.empty (c : Contents) : Collection c := ⟨.empty, []⟩

def entryOf (kind : Kind) (e : Entry Key JsValue) : JsValue × JsValue :=
  match kind with
  | .map => (e.key.1, e.value)
  | .set => (e.key.1, e.key.1)

/-- One step of a cursor: the first live entry from its time on, each time once. -/
def Place.next {c : Contents} (kind : Kind) (m : Dictionary c) (p : Place) : Place × Answer :=
  match p.time.bind m.next? with
  | some e => ({ p with time := some (e.stamp + 1) }, p.answer (entryOf kind e))
  | none => ({ p with time := none }, .done)

def Collection.call {c : Contents} (kind : Kind) (s : Collection c) : Op → Collection c × Answer
  | .put key value => ({ s with map := s.map.put key value }, .this)
  | .get key =>
    match kind with
    | .map => (s, .value (((s.map.find? key).map Entry.value).getD .undefined))
    | .set => (s, .typeError)
  | .has key => (s, .bool (s.map.has key))
  | .delete key => ({ s with map := s.map.delete key }, .bool (s.map.has key))
  | .clear => ({ s with map := s.map.clear }, .undefined)
  | .size => (s, .number (some (f64OfInt s.map.size)))
  | .iterate it => ({ s with cursors := s.cursors ++ [⟨it.answer kind, some 0⟩] }, .this)
  | .forEach => ({ s with cursors := s.cursors ++ [⟨fun e => .pair e.2 e.1, some 0⟩] }, .this)
  | .next i =>
    match s.cursors[i]? with
    | none => (s, .undefined)
    | some p =>
      let (p', answer) := p.next kind s.map
      ({ s with cursors := s.cursors.set i p' }, answer)

def Collection.answers {c : Contents} (kind : Kind) : Collection c → List Op → List Answer
  | _, [] => []
  | s, op :: ops => (s.call kind op).2 :: Collection.answers kind (s.call kind op).1 ops

/-- A sequence of calls on a new Map or Set answers as the ordered collection does. -/
def Behaves (c : Contents) (kind : Kind) (ops : List Op) : Prop :=
  V12.Collections.answers kind .empty ops = Collection.answers kind (.empty c) ops

end V12.Collections
