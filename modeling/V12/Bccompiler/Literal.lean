/-
V12.Bccompiler.Literal — object literals, from `v12-bccompiler/src/expr.rs`
(`object_literal`, `object_prop`, `accessor_parts`).

A data entry is a `SetProperty` and a spread a `MergeObject` where they stand.
The bodies of accessors are made where they stand too, but the accessors are
collected by the text of their keys and defined behind everything else; a
computed key has no text.
-/
import V12.Lib.OrderedMap
import V12.Named.Store

namespace V12.Literal

open V12.Heap (PropKey JsValue)
open V12.Named (Inherited Answer)

/-! ## §1 Objects -/

inductive Half where
  | getter | setter
  deriving DecidableEq

/-- An own property of the object; functions are handles. -/
inductive Own where
  | data (v : JsValue)
  | accessor (getter setter : Option Nat)
  deriving DecidableEq

namespace Own

def half : Own → Half → Option Nat
  | .data _, _ => none
  | .accessor getter _, .getter => getter
  | .accessor _ setter, .setter => setter

def isData : Own → Bool
  | .data _ => true
  | .accessor .. => false

end Own

/-- The halves of a property, if there is one and it is an accessor. -/
def ownHalf (own : Option Own) (h : Half) : Option Nat := own.bind fun p => p.half h

/-- An object that is being built. A key is read and written at its first record; the records
that an instruction adds behind it are listed when the keys are enumerated. -/
structure Object where
  props : List (PropKey × Own)
  /-- The records behind the first of their key. -/
  shadowed : List (PropKey × Own)
  /-- The prototype the literal has given the object, if it has. -/
  prototype : Option JsValue

namespace Object

/-- `NewObject`. -/
def new : Object := ⟨[], [], none⟩

def own (o : Object) (key : PropKey) : Option Own := o.props.lookup key

def put (o : Object) (key : PropKey) (p : Own) : Object :=
  { o with props := Lib.alter (fun _ => p) key o.props }

def shadow (o : Object) (key : PropKey) (p : Own) : Object :=
  { o with shadowed := o.shadowed ++ [(key, p)] }

/-! ## §2 The instructions -/

/-- `SetProperty`: a `[[Set]]` on the object, with the prototype chain's answer for the key. -/
def setProperty (o : Object) (key : PropKey) (v : JsValue) (inherited : Inherited) :
    Object × Answer :=
  match o.own key with
  | some (.data _) => (o.put key (.data v), .done)
  | some (.accessor _ (some f)) => (o, .calls f)
  | some (.accessor _ none) => (o, .refused)
  | none =>
    match inherited with
    | .proxy => (o, .forwards)
    | .accessor (some f) => (o, .calls f)
    | .accessor none | .data false => (o, .refused)
    | .data true | .missing => (o.put key (.data v), .done)

/-- One copy of `MergeObject`; the record of a key that is there comes behind the first. -/
def addCopy (o : Object) (key : PropKey) (v : JsValue) : Object :=
  match o.own key with
  | some _ => o.shadow key (.data v)
  | none => o.put key (.data v)

def mergeObject (o : Object) (copies : List (PropKey × JsValue)) : Object :=
  copies.foldl (fun o c => o.addCopy c.1 c.2) o

/-- `DefineAccessorEnumerable`. Halves that are not given are taken from the accessor `found` on
the shape's edge, if there is one, or else from the object's own; the record of a data
property's key comes behind the first. -/
def defineAccessor (o : Object) (key : PropKey) (getter setter : Option Nat)
    (found : Option (Option Nat × Option Nat)) : Object :=
  let own := o.own key
  let base := found.getD (ownHalf own .getter, ownHalf own .setter)
  let accessor := Own.accessor (getter.or base.1) (setter.or base.2)
  match own with
  | some (.data _) => o.shadow key accessor
  | _ => o.put key accessor

end Object

/-! ## §3 Literals -/

/-- A property name, with the key it stands for. -/
inductive Key where
  /-- An identifier, string or number, with its `static_key_text`. -/
  | static (text : String) (key : PropKey)
  /-- A string or number in brackets. -/
  | literal (text : String) (key : PropKey)
  /-- Another expression in brackets; `runs`: its value is converted by calls. -/
  | computed (key : PropKey) (runs : Bool)

namespace Key

/-- `static_key_text(..).unwrap_or_default()`. -/
def text : Key → String
  | .static text _ | .literal text _ => text
  | .computed .. => ""

def named : Key → PropKey
  | .static _ key | .literal _ key | .computed key _ => key

def runs : Key → Bool
  | .static .. | .literal .. => false
  | .computed _ runs => runs

/-- The key of the instruction: the text of a static name is loaded as a string. -/
def atRun (intern : String → PropKey) : Key → PropKey
  | .static text _ => intern text
  | .literal _ key | .computed key _ => key

end Key

/-- An entry that is emitted in place, with what its run meets: the prototype chain's answers,
the properties of the source of a spread that are copied and those that are its own
enumerable ones, a number for each value. -/
inductive DataEntry where
  /-- `k: v`, a shorthand or a method. -/
  | prop (key : Key) (inherited : Inherited)
  /-- `__proto__: v`. -/
  | proto (inherited : Inherited)
  | spread (copied own : List (PropKey × Nat)) (once : (own.map Prod.fst).Nodup)

inductive Entry where
  | data (e : DataEntry)
  | accessor (key : Key) (half : Half)

/-- The values of a run: of the entries, of the properties of spread sources, and the functions
made for the accessors. -/
structure Values where
  value : Nat → JsValue
  read : Nat → Nat → JsValue
  body : Nat → Nat

/-! ## §4 The compiled code -/

/-- An accessor entry, by its position. -/
structure Member where
  index : Nat
  key : Key
  half : Half

/-- `AccessorPair`, with the entries it has been made of. -/
structure AccessorPair where
  text : String
  first : Member
  more : List Member

namespace AccessorPair

def members (p : AccessorPair) : List Member := p.first :: p.more

/-- `getter` and `setter`: the later body takes the place of the earlier. -/
def body (p : AccessorPair) (h : Half) : Option Nat :=
  ((p.members.filter fun m => m.half = h).getLast?).map Member.index

end AccessorPair

def addAccessor : List AccessorPair → String → Member → List AccessorPair
  | [], text, m => [⟨text, m, []⟩]
  | p :: ps, text, m =>
    if p.text = text then { p with more := p.more ++ [m] } :: ps else p :: addAccessor ps text m

/-- An emission. -/
inductive Step where
  | entry (i : Nat) (e : DataEntry)
  | pair (p : AccessorPair)

/-- `object_literal` from entry `i` on, with the accessors so far. -/
def objectLiteral : List Entry → Nat → List AccessorPair → List Step
  | [], _, accessors => accessors.map .pair
  | .data e :: es, i, accessors => .entry i e :: objectLiteral es (i + 1) accessors
  | .accessor key half :: es, i, accessors =>
    objectLiteral es (i + 1) (addAccessor accessors key.text ⟨i, key, half⟩)

section Runs

variable (intern : String → PropKey) (found : Nat → Option (Option Nat × Option Nat))

/-- What an emission does; `found` is what earlier literals left on the shapes' edges. -/
def Step.run (w : Values) (o : Object) : Step → Object × Answer
  | .entry i (.prop key inherited) => o.setProperty (key.atRun intern) (w.value i) inherited
  | .entry i (.proto inherited) => o.setProperty (intern "__proto__") (w.value i) inherited
  | .entry i (.spread copied _ _) =>
    (o.mergeObject (copied.map fun c => (c.1, w.read i c.2)), .done)
  | .pair p =>
    (o.defineAccessor (p.first.key.atRun intern) ((p.body .getter).map w.body)
      ((p.body .setter).map w.body) (found p.first.index), .done)

def stepObject (w : Values) (o : Object) (st : Step) : Object := (st.run intern found w o).1

/-! ## §5 The left fold -/

/-- A definition of a property. -/
inductive Definition where
  | data (v : JsValue)
  | half (h : Half) (f : Nat)

/-- What a definition makes of a property: data replaces, a half joins an accessor. -/
def Definition.apply : Option Own → Definition → Own
  | _, .data v => .data v
  | own, .half .getter f => .accessor (some f) (ownHalf own .setter)
  | own, .half .setter f => .accessor (ownHalf own .getter) (some f)

def DataEntry.definitions (w : Values) (i : Nat) : DataEntry → List (PropKey × Definition)
  | .prop key _ => [(key.named, .data (w.value i))]
  | .proto _ => []
  | .spread _ own _ => own.map fun c => (c.1, .data (w.read i c.2))

def Member.definition (w : Values) (m : Member) : PropKey × Definition :=
  (m.key.named, .half m.half (w.body m.index))

def Object.define (o : Object) (defs : List (PropKey × Definition)) : Object :=
  { o with props := Lib.build Definition.apply defs o.props }

def isPrototype : JsValue → Bool
  | .object _ | .null => true
  | _ => false

def DataEntry.define (w : Values) (i : Nat) (o : Object) (e : DataEntry) : Object :=
  match e with
  | .proto _ => if isPrototype (w.value i) then { o with prototype := some (w.value i) } else o
  | e => o.define (e.definitions w i)

/-- **The left fold** of the definitions of the entries from entry `i` on. -/
def leftFold (w : Values) : List Entry → Nat → Object → Object
  | [], _, o => o
  | .data e :: es, i, o => leftFold w es (i + 1) (e.define w i o)
  | .accessor key half :: es, i, o =>
    leftFold w es (i + 1) (o.define [Member.definition w ⟨i, key, half⟩])

def Step.define (w : Values) (o : Object) : Step → Object
  | .entry i e => e.define w i o
  | .pair p => o.define (p.members.map (Member.definition w))

/-! ## §6 Evaluation -/

/-- What a literal evaluates, by entry. -/
inductive Event where
  | key (i : Nat)
  /-- The key's value is converted by calls. -/
  | convert (i : Nat)
  | body (i : Nat)
  deriving DecidableEq

def Key.evaluated (i : Nat) : Key → List Event
  | .static .. => []
  | .literal .. | .computed .. => [.key i]

def Key.converted (i : Nat) (key : Key) : List Event := if key.runs then [.convert i] else []

def inPlace : List Entry → Nat → List Event
  | [], _ => []
  | .data (.prop key _) :: es, i =>
    key.evaluated i ++ key.converted i ++ .body i :: inPlace es (i + 1)
  | .data (.proto _) :: es, i | .data (.spread ..) :: es, i => .body i :: inPlace es (i + 1)
  | .accessor key _ :: es, i =>
    key.evaluated i ++ key.converted i ++ .body i :: inPlace es (i + 1)

/-- The code's evaluation: the instruction of the entry converts the key. -/
def evaluation : List Entry → Nat → List AccessorPair → List Event
  | [], _, accessors => accessors.flatMap fun p => p.first.key.converted p.first.index
  | .data (.prop key _) :: es, i, accessors =>
    key.evaluated i ++ .body i :: key.converted i ++ evaluation es (i + 1) accessors
  | .data (.proto _) :: es, i, accessors | .data (.spread ..) :: es, i, accessors =>
    .body i :: evaluation es (i + 1) accessors
  | .accessor key half :: es, i, accessors =>
    key.evaluated i ++ .body i ::
      evaluation es (i + 1) (addAccessor accessors key.text ⟨i, key, half⟩)

/-! ## §7 The property and its condition -/

/-- The emission defines what its entries define, whatever the values, and does nothing else. -/
def Defines (o : Object) (st : Step) : Prop :=
  ∀ w, st.run intern found w o = (st.define w o, .done)

/-- In every run of the literal, each emission defines what its entries define, the object is the
left fold of the entries' definitions, and keys are evaluated in place. -/
def Held (entries : List Entry) : Prop :=
  evaluation entries 0 [] = inPlace entries 0 ∧
    ∀ w, Lib.StepsMeet (stepObject intern found w) (Defines intern found) .new
        (objectLiteral entries 0 []) ∧
      Lib.run (stepObject intern found w) .new (objectLiteral entries 0 []) =
        leftFold w entries 0 .new

def Inherited.passes : Inherited → Bool
  | .missing | .data true => true
  | .data false | .accessor _ | .proxy => false

def KeepsHalf (o : Object) (p : AccessorPair) (h : Half) (base : Option Nat) : Prop :=
  p.body h = none → base = ownHalf (o.own (p.first.key.atRun intern)) h

/-- A `[[Set]]` of the key goes to the object itself. -/
def Object.accepts (o : Object) (key : PropKey) (inherited : Inherited) : Bool :=
  match o.own key with
  | some p => p.isData
  | none => Inherited.passes inherited

def Clear (o : Object) : Step → Prop
  | .entry _ (.prop key inherited) =>
    key.atRun intern = key.named ∧ o.accepts key.named inherited = true
  | .entry _ (.proto _) => False
  | .entry _ (.spread copied own _) =>
    (∀ c ∈ own, o.own c.1 = none) ∧ copied = own
  | .pair p =>
    (∀ m ∈ p.members, m.key.named = p.first.key.atRun intern) ∧
      (o.own (p.first.key.atRun intern)).all (fun own => !own.isData) = true ∧
      ∀ base, found p.first.index = some base →
        KeepsHalf intern o p .getter base.1 ∧ KeepsHalf intern o p .setter base.2

end Runs

/-- The accessor entries from entry `i` on. -/
def membersFrom : List Entry → Nat → List Member
  | [], _ => []
  | .data _ :: es, i => membersFrom es (i + 1)
  | .accessor key half :: es, i => ⟨i, key, half⟩ :: membersFrom es (i + 1)

def DataEntry.keys : DataEntry → List PropKey
  | .prop key _ => [key.named]
  | .proto _ => []
  | .spread _ own _ => own.map Prod.fst

def Entry.keys : Entry → List PropKey
  | .data e => e.keys
  | .accessor key _ => [key.named]

def Step.keys : Step → List PropKey
  | .entry _ e => e.keys
  | .pair p => p.members.map fun m => m.key.named

def lastBody (key : PropKey) (h : Half) (members : List Member) : Option Nat :=
  ((members.filter fun m => m.key.named = key ∧ m.half = h).getLast?).map Member.index

def Step.members : Step → List Member
  | .entry .. => []
  | .pair p => p.members

/-- The order of the emissions tells no difference: keys come up in the order of the source, and
the accessor defined last is the last in the source. -/
structure InOrder (entries : List Entry) : Prop where
  keys : Lib.firstKeys ((objectLiteral entries 0 []).flatMap Step.keys) =
    Lib.firstKeys (entries.flatMap Entry.keys)
  bodies : ∀ key h, lastBody key h ((objectLiteral entries 0 []).flatMap Step.members) =
    lastBody key h (membersFrom entries 0)

def Entry.plainKey : Entry → Bool
  | .data (.prop key _) | .accessor key _ => !key.runs
  | .data (.proto _) | .data (.spread ..) => true

end V12.Literal
