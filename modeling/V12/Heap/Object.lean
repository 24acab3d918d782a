/-
V12.Heap.Object — the cells of the five heap spaces and their `Trace`
implementations, from `v12-heap/src/value.rs`, `object.rs`, `string.rs`,
`elements.rs`, `function.rs`, `prop_key.rs` and `shape.rs`.

A handle is an index into the space of its type; a `Ref` is an index with
its space. `trace` lists the slots a cell reports to the collector, in the
order it reports them.
-/
import V12.Heap.Shape

namespace V12.Heap

/-! ## §1 References and values -/

inductive Space where
  | objects | strings | symbols | bigints | shapes
  deriving DecidableEq, Repr

namespace Space

def all : List Space := [.objects, .strings, .symbols, .bigints, .shapes]

theorem mem_all (s : Space) : s ∈ all := by cases s <;> decide

theorem nodup_all : all.Nodup := by decide

end Space

abbrev Ref := Space × Nat

/-- The `Trace` trait: the slots a value reports. -/
class Trace (α : Type) where
  trace : α → List Ref

export Trace (trace)

instance {α : Type} [Trace α] : Trace (List α) := ⟨fun items => items.flatMap trace⟩

instance {α : Type} [Trace α] : Trace (Option α) := ⟨fun item => item.toList.flatMap trace⟩

/-- `Trace for Handle<T>`, the space being `T`'s. -/
def traceHandle (space : Space) (h : Option Nat) : List Ref := h.toList.map fun i => (space, i)

/-- A NaN-boxed value, by tag. -/
inductive JsValue where
  | undefined
  | null
  | bool (b : Bool)
  | hole
  | empty
  | smi (n : Int)
  | double (bits : BitVec 64)
  | object (h : Nat)
  | string (h : Nat)
  | symbol (h : Nat)
  | bigint (h : Nat)
  deriving DecidableEq, Repr

namespace JsValue

/-- `as_slot`. -/
def asSlot : JsValue → Option Ref
  | .object h => some (.objects, h)
  | .string h => some (.strings, h)
  | .symbol h => some (.symbols, h)
  | .bigint h => some (.bigints, h)
  | _ => none

def isHole : JsValue → Bool
  | .hole => true
  | _ => false

end JsValue

instance : Trace JsValue := ⟨fun v => v.asSlot.toList⟩

def PropKey.slot : PropKey → Ref
  | .string h => (.strings, h)
  | .symbol h => (.symbols, h)

/-- `Trace for PropKey`: nothing. -/
instance : Trace PropKey := ⟨fun _ => []⟩

/-! ## §2 Elements -/

/-- `ElementsDictionary`: entries by index, and the length view. -/
structure ElementsDictionary where
  entries : List (Nat × JsValue)
  length : Nat

/-- `ElementsStorage`, the rungs of the lattice. -/
inductive ElementsStorage where
  | packedSmi (v : List Int)
  | holeySmi (v : List JsValue)
  | packedDouble (v : List (BitVec 64))
  | holeyDouble (v : List JsValue)
  | packedObject (v : List JsValue)
  | holeyObject (v : List JsValue)
  | dictionary (dict : ElementsDictionary)

namespace ElementsStorage

/-- `ElementsArray::new`. -/
def new : ElementsStorage := .packedSmi []

/-- `ElementsArray::get`. -/
def get (e : ElementsStorage) (i : Nat) : Option JsValue :=
  match e with
  | .packedSmi v => v[i]?.map .smi
  | .holeySmi v => v[i]?.filter (fun u => !u.isHole)
  | .packedDouble v => v[i]?.map .double
  | .holeyDouble v => v[i]?.filter (fun u => !u.isHole)
  | .packedObject v => v[i]?
  | .holeyObject v => v[i]?.filter (fun u => !u.isHole)
  | .dictionary dict => dict.entries.lookup i

end ElementsStorage

instance : Trace ElementsStorage where
  trace
    | .packedSmi _ | .packedDouble _ => []
    | .holeySmi v | .holeyDouble v | .packedObject v | .holeyObject v => trace v
    | .dictionary dict => dict.entries.flatMap fun e => trace e.2

/-! ## §3 Objects -/

/-- `Kind`, the kinds an object can be stored with. -/
inductive Kind where
  | ordinary | function | array | arguments | generator | promise | error | map | set | iterator
  | regExp | date | moduleNamespace | bindingCell | proxy
  deriving DecidableEq, Repr

/-- `FunctionTarget`; native handlers and host closures are names. -/
inductive FunctionTarget where
  | bytecode (index : Nat)
  | native (handler : Nat)
  | host (closure : Nat)
  | realmEval (global : Nat)
  | bound (state : Nat)

instance : Trace FunctionTarget where
  trace
    | .realmEval global => [(.objects, global)]
    | .bound state => [(.objects, state)]
    | _ => []

structure BindingCellData where
  value : JsValue
  initialized : Bool

structure ModuleNamespaceRecord where
  cells : List Nat

structure PrivateName where
  method : JsValue
  setter : JsValue

/-- One record of the named-property dictionary. -/
structure DictEntry where
  slot : Nat
  attrs : Attrs
  getter : Option Nat
  setter : Option Nat
  isAccessor : Bool
  seq : Nat
  deriving DecidableEq

structure JsObject where
  kind : Kind
  callable : FunctionTarget
  capturedEnv : Option Nat
  shape : Nat
  properties : List JsValue
  propertyKeys : List (Option PropKey)
  elements : List JsValue
  elementsArray : ElementsStorage
  prototype : Option Nat
  proxyTarget : Option Nat
  proxyHandler : Option Nat
  bindingCell : Option BindingCellData
  moduleNamespace : Option ModuleNamespaceRecord
  privateName : Option PrivateName
  privateElements : Option (List (Nat × JsValue))
  dictionary : Option (List (PropKey × DictEntry))
  dictSeq : Nat
  argumentsCallee : Option JsValue

/-- `JsObject::default`, born with the empty-object root shape. -/
instance : Inhabited JsObject where
  default :=
    { kind := .ordinary
      callable := .bytecode 0
      capturedEnv := none
      shape := 0
      properties := []
      propertyKeys := []
      elements := []
      elementsArray := .new
      prototype := none
      proxyTarget := none
      proxyHandler := none
      bindingCell := none
      moduleNamespace := none
      privateName := none
      privateElements := none
      dictionary := none
      dictSeq := 0
      argumentsCallee := none }

instance : Trace BindingCellData := ⟨fun cell => trace cell.value⟩

instance : Trace ModuleNamespaceRecord := ⟨fun record => record.cells.map fun c => (.objects, c)⟩

instance : Trace PrivateName := ⟨fun name => trace name.method ++ trace name.setter⟩

/-- Dictionary entries name no values; only the accessor halves are reported. -/
instance : Trace DictEntry := ⟨fun e => traceHandle .objects e.getter ++ traceHandle .objects e.setter⟩

/-- The values of the dictionary, without its keys. -/
def JsObject.dictEntries (o : JsObject) : List DictEntry := (o.dictionary.getD []).map Prod.snd

instance : Trace JsObject where
  trace o :=
    trace o.properties ++ trace o.propertyKeys ++ trace o.elements ++ trace o.elementsArray ++
    traceHandle .objects o.prototype ++ trace o.argumentsCallee ++
    traceHandle .objects o.proxyTarget ++ traceHandle .objects o.proxyHandler ++
    traceHandle .objects o.capturedEnv ++ trace o.bindingCell ++ trace o.moduleNamespace ++
    trace o.callable ++ trace o.privateName ++
    (o.privateElements.getD []).flatMap (fun e => (.objects, e.1) :: trace e.2) ++
    trace o.dictEntries

/-! ## §4 Strings, symbols, bigints and shapes -/

/-- `StrStorage`. -/
inductive StrStorage where
  | latin1 (bytes : List (BitVec 8))
  | utf16 (units : List (BitVec 16))
  | cons (left right : Nat) (len : Nat)
  | sliced (parent : Nat) (startUtf16 len : Nat)

structure V12Str where
  storage : StrStorage
  hash : Option (BitVec 32)

instance : Inhabited V12Str := ⟨⟨.latin1 [], none⟩⟩

instance : Trace V12Str where
  trace s :=
    match s.storage with
    | .cons left right _ => [(.strings, left), (.strings, right)]
    | .sliced parent _ _ => [(.strings, parent)]
    | .latin1 _ | .utf16 _ => []

/-- `V12Symbol`: opaque. -/
structure V12Symbol where
  deriving Inhabited

instance : Trace V12Symbol := ⟨fun _ => []⟩

structure V12BigInt where
  sign : Bool
  magnitudeLe : List (BitVec 8)
  deriving Inhabited

instance : Trace V12BigInt := ⟨fun _ => []⟩

/-- The slots a descriptor reports: its key's and its accessor halves. -/
instance : Trace Descriptor where
  trace
    | .data key _ _ => [key.slot]
    | .accessor key getter setter _ =>
      key.slot :: (traceHandle .objects getter ++ traceHandle .objects setter)

instance : Inhabited Shape := ⟨.reserved 0⟩

/-- `Trace for Shape`: the parent and the descriptors; transitions are weak. -/
instance : Trace Shape where
  trace s := traceHandle .shapes s.parent ++ trace s.descriptors.asSlice

abbrev Cell : Space → Type
  | .objects => JsObject
  | .strings => V12Str
  | .symbols => V12Symbol
  | .bigints => V12BigInt
  | .shapes => Shape

instance : (space : Space) → Inhabited (Cell space)
  | .objects => inferInstanceAs (Inhabited JsObject)
  | .strings => inferInstanceAs (Inhabited V12Str)
  | .symbols => inferInstanceAs (Inhabited V12Symbol)
  | .bigints => inferInstanceAs (Inhabited V12BigInt)
  | .shapes => inferInstanceAs (Inhabited Shape)

instance : (space : Space) → Trace (Cell space)
  | .objects => inferInstanceAs (Trace JsObject)
  | .strings => inferInstanceAs (Trace V12Str)
  | .symbols => inferInstanceAs (Trace V12Symbol)
  | .bigints => inferInstanceAs (Trace V12BigInt)
  | .shapes => inferInstanceAs (Trace Shape)

/-! ## §5 Membership in a trace -/

variable {α : Type} {r : Ref} {v : JsValue}

@[simp] theorem trace_nil [Trace α] : trace ([] : List α) = [] := rfl

theorem mem_trace_list [Trace α] {items : List α} :
    r ∈ trace items ↔ ∃ item ∈ items, r ∈ trace item := List.mem_flatMap

theorem mem_trace_option [Trace α] {item : Option α} :
    r ∈ trace item ↔ ∃ a, item = some a ∧ r ∈ trace a := by
  cases item <;> simp [trace]

theorem mem_traceHandle {space : Space} {h : Option Nat} :
    r ∈ traceHandle space h ↔ ∃ i, h = some i ∧ r = (space, i) := by
  cases h <;> simp [traceHandle]

theorem mem_trace_value : r ∈ trace v ↔ v.asSlot = some r := by
  simp [trace, Option.mem_toList]

theorem ElementsStorage.trace_of_get {e : ElementsStorage} {i : Nat} (hget : e.get i = some v)
    (hr : v.asSlot = some r) : r ∈ trace e := by
  have hmem {vs : List JsValue} (hv : vs[i]? = some v) : r ∈ trace vs :=
    mem_trace_list.mpr ⟨v, List.mem_of_getElem? hv, mem_trace_value.mpr hr⟩
  cases e with
  | packedSmi vs =>
    obtain ⟨n, -, rfl⟩ := Option.map_eq_some_iff.mp hget
    cases hr
  | packedDouble vs =>
    obtain ⟨d, -, rfl⟩ := Option.map_eq_some_iff.mp hget
    cases hr
  | holeySmi vs => exact hmem (Option.filter_eq_some_iff.mp hget).1
  | holeyDouble vs => exact hmem (Option.filter_eq_some_iff.mp hget).1
  | packedObject vs => exact hmem hget
  | holeyObject vs => exact hmem (Option.filter_eq_some_iff.mp hget).1
  | dictionary dict =>
    obtain ⟨l₁, l₂, heq, -⟩ := List.lookup_eq_some_iff.mp hget
    refine List.mem_flatMap.mpr ⟨(i, v), ?_, mem_trace_value.mpr hr⟩
    rw [heq]
    simp

end V12.Heap
