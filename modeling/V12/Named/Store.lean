/-
V12.Named.Store — the named properties of one object, as the two object
models of the repository keep and use them.

An object's own properties are the records of its shape, whose data slots
name cells of `properties`, and the entries of its dictionary:
`v12-interp/src/property.rs` and `object_ops.rs` (§3 and §4) and
`v12-engine/src/internal_methods.rs` (§5 and §6).
-/
import V12.Heap.ShapeLayout
import V12.Interp.Property

namespace V12.Named

open V12.Heap V12.Interp

/-! ## §1 The store -/

/-- `Attrs::new`. -/
def attrsOf (writable enumerable configurable : Bool) : Attrs :=
  ⟨BitVec.ofBool configurable ++ BitVec.ofBool enumerable ++ BitVec.ofBool writable |>.setWidth 8⟩

/-- An object with the shape space it lives in; `realmGlobal` is
`is_realm_global`, `extensible` the absence of `FLAG_NOT_EXTENSIBLE`. -/
structure Store where
  tree : ShapeTree
  object : JsObject
  realmGlobal : Bool
  extensible : Bool

/-- A partial descriptor: `FullDescriptor` of the engine and `OwnDesc` of the
interpreter. An accessor half that is there names a function or `undefined`. -/
structure PartialDescriptor where
  value : Option JsValue
  writable : Option Bool
  enumerable : Option Bool
  configurable : Option Bool
  get : Option (Option Nat)
  set : Option (Option Nat)

namespace PartialDescriptor

def isData (d : PartialDescriptor) : Bool := d.value.isSome || d.writable.isSome

def isAccessor (d : PartialDescriptor) : Bool := d.get.isSome || d.set.isSome

def isGeneric (d : PartialDescriptor) : Bool := !d.isAccessor && !d.isData

/-- `merged_attrs`: absent fields keep the current attribute. -/
def mergedAttrs (d : PartialDescriptor) (current : Attrs) : Attrs :=
  attrsOf (d.writable.getD current.writable) (d.enumerable.getD current.enumerable)
    (d.configurable.getD current.configurable)

/-- The attributes of a new data property: absent fields are false. -/
def freshAttrs (d : PartialDescriptor) : Attrs :=
  attrsOf (d.writable.getD false) (d.enumerable.getD false) (d.configurable.getD false)

end PartialDescriptor

/-- An own property as a descriptor reports it. -/
inductive OwnProperty where
  | data (value : JsValue) (attrs : Attrs)
  | accessor (getter setter : Option Nat) (attrs : Attrs)
  deriving DecidableEq

/-- The attributes of a property; an accessor is not writable. -/
def OwnProperty.base : OwnProperty → Attrs
  | .data _ attrs => attrs
  | .accessor _ _ attrs => attrsOf false attrs.enumerable attrs.configurable

/-- What a read at the object itself finds. -/
inductive OwnRead where
  | value (v : JsValue)
  | getter (g : Option Nat)
  /-- Out of bounds. -/
  | fault
  deriving DecidableEq

/-- The prototype chain's answer for a key that is being set. -/
inductive Inherited where
  | missing
  | data (writable : Bool)
  | accessor (setter : Option Nat)
  | proxy
  deriving DecidableEq

/-- How an operation ends; `refused` throws in strict code or reports `false`. -/
inductive Answer where
  | done
  | refused
  | calls (setter : Nat)
  | forwards
  | fault
  deriving DecidableEq

namespace Store

def record (s : Store) (key : PropKey) : Option Descriptor := s.tree.lookup s.object.shape key

def entry (s : Store) (key : PropKey) : Option DictEntry := dictEntry s.object key

/-- `num_own` of the object's shape. -/
def numOwn (s : Store) : Nat := s.tree.numOwn s.object.shape

def cell (s : Store) (i : Nat) : Option JsValue := s.object.properties[i]?

def liveCell (s : Store) (i : Nat) : Option JsValue := (s.cell i).filter fun v => !v.isHole

/-- `global_slot_index`. -/
def slotIndex (s : Store) (slot : Nat) : Nat :=
  if s.realmGlobal then globalVarOffset + slot else slot

/-! ## §2 Changes both models make -/

def withObject (s : Store) (o : JsObject) : Store := { s with object := o }

def setCell (s : Store) (i : Nat) (v : JsValue) : Store :=
  s.withObject { s.object with properties := s.object.properties.set i v }

/-- `properties.resize`, growing only. -/
def resized (cells : List JsValue) (n : Nat) (fill : JsValue) : List JsValue :=
  cells ++ List.replicate (n - cells.length) fill

def growCell (s : Store) (i : Nat) (v fill : JsValue) : Store :=
  s.withObject
    { s.object with properties := (resized s.object.properties (i + 1) fill).set i v }

/-- Makes sure the cells below `n` are there. -/
def reserve (s : Store) (n : Nat) : Store :=
  s.withObject { s.object with properties := resized s.object.properties n .hole }

def pushCell (s : Store) (v : JsValue) : Store :=
  s.withObject { s.object with properties := s.object.properties ++ [v] }

/-- `properties[i] = v`. -/
def writeCell (s : Store) (i : Nat) (v : JsValue) : Store × Answer :=
  if i < s.object.properties.length then (s.setCell i v, .done) else (s, .fault)

/-- `bind_shape` with the shape a call returned. -/
def bindShape (s : Store) (r : ShapeTree × Nat) : Store :=
  { s with tree := r.1.bind r.2, object := { s.object with shape := r.2 } }

def updateEntry (s : Store) (key : PropKey) (f : DictEntry → DictEntry) : Store :=
  s.withObject
    { s.object with
      dictionary := s.object.dictionary.map fun entries =>
        entries.map fun e => if e.1 = key then (e.1, f e.2) else e }

/-- `map.remove`. -/
def removeEntry (s : Store) (key : PropKey) : Store :=
  s.withObject
    { s.object with
      dictionary := s.object.dictionary.map fun entries => entries.filter fun e => e.1 ≠ key }

/-- `dict_insert`, spilled to the dictionary before. -/
def insertEntry (s : Store) (key : PropKey) (value : JsValue) (attrs : Attrs) : Store :=
  s.withObject (Machine.dictInsert s.object key value attrs)

/-- `convert_to_dictionary`. -/
def spill (s : Store) : Store := s.withObject (Machine.convertToDictionary s.object s.numOwn)

/-! ## §3 The interpreter's reads -/

/-- `ordinary_own_descriptor`. -/
def ordinaryOwnDescriptor (s : Store) (key : PropKey) : Option OwnProperty :=
  match s.entry key with
  | some e =>
    if e.isAccessor then some (.accessor e.getter e.setter e.attrs)
    else (s.liveCell e.slot).map fun v => .data v e.attrs
  | none =>
    match s.record key with
    | some (.data _ slot attrs) => (s.liveCell slot).map fun v => .data v attrs
    | some (.accessor _ getter setter attrs) => some (.accessor getter setter attrs)
    | none => none

/-- The cell is there and deleted, at the interpreter's index. -/
def holed (s : Store) (slot : Nat) : Bool := (s.cell (s.slotIndex slot)).any JsValue.isHole

def readSlot (s : Store) (slot : Nat) : OwnRead :=
  match s.cell (s.slotIndex slot) with
  | some v => .value v
  | none => .fault

/-- The object's own level of the walk of `ic_lookup`. -/
def icOwn (s : Store) (key : PropKey) : Option OwnRead :=
  let shapeLevel : Option OwnRead :=
    match s.record key with
    | some (.data _ slot _) => if s.holed slot then none else some (s.readSlot slot)
    | some (.accessor _ getter _ _) => some (.getter getter)
    | none => none
  match s.entry key with
  | some e =>
    if e.isAccessor then some (.getter e.getter)
    else if s.holed e.slot then shapeLevel
    else some (s.readSlot e.slot)
  | none => shapeLevel

/-- The object's own level of `op_in`. The dictionary arm reads the plain slot. -/
def opIn (s : Store) (key : PropKey) : Bool :=
  match s.entry key with
  | some e => e.isAccessor || !(s.cell e.slot).any JsValue.isHole
  | none =>
    match s.record key with
    | some (.data _ slot _) => !s.holed slot
    | some (.accessor ..) => true
    | none => false

/-! ## §4 The interpreter's writes -/

/-- The setter arm of a `[[Set]]`. -/
def callSetter (s : Store) (setter : Option Nat) : Store × Answer :=
  match setter with
  | some f => (s, .calls f)
  | none => (s, .refused)

/-- The add path of `set_property`. -/
def addKey (s : Store) (key : PropKey) (value : JsValue) : Store × Answer :=
  if s.object.dictionary.isSome then (s.insertEntry key value .default, .done)
  else
    match s.tree.addProperty s.object.shape key .default with
    | none => (s, .fault)
    | some r =>
      if s.realmGlobal then
        let i := globalVarOffset + (r.1.numOwn r.2 - 1)
        ((s.bindShape r).growCell i value .undefined, .done)
      else ((s.bindShape r).pushCell value, .done)

/-- `set_property`: the shape first, then the dictionary, then the chain. -/
def setProperty (s : Store) (key : PropKey) (value : JsValue) (inherited : Inherited) :
    Store × Answer :=
  match s.record key with
  | some (.data _ slot attrs) =>
    if attrs.writable then s.writeCell (s.slotIndex slot) value else (s, .refused)
  | some (.accessor _ _ setter _) => s.callSetter setter
  | none =>
    match s.entry key with
    | some e =>
      if e.isAccessor then s.callSetter e.setter
      else if e.attrs.writable then s.writeCell (s.slotIndex e.slot) value
      else (s, .refused)
    | none =>
      match inherited with
      | .proxy => (s, .forwards)
      | .accessor setter => s.callSetter setter
      | .data false => (s, .refused)
      | .data true | .missing => if s.extensible then s.addKey key value else (s, .refused)

/-- `define_own_data_attrs`. -/
def defineOwnDataAttrs (s : Store) (key : PropKey) (value : JsValue) (attrs : Attrs) :
    Store × Answer :=
  let shapePath : Store × Answer :=
    match s.record key with
    | some (.data _ slot _) =>
      let s' := s.growCell slot value .hole
      match s'.tree.updateDataAttrs s'.object.shape key attrs with
      | none => (s', .fault)
      | some r => (s'.bindShape r, .done)
    | some (.accessor ..) | none =>
      match s.tree.addProperty s.object.shape key attrs with
      | none => (s, .fault)
      | some r => ((s.bindShape r).growCell (r.1.numOwn r.2 - 1) value .hole, .done)
  match s.entry key with
  | some e =>
    if e.isAccessor then (s, .done)
    else ((s.growCell e.slot value .hole).updateEntry key fun e => { e with attrs := attrs }, .done)
  | none =>
    if s.object.dictionary.isSome && (s.record key).isNone then
      (s.insertEntry key value attrs, .done)
    else shapePath

/-- `define_accessor_own`, and `op_define_accessor` with its attributes. -/
def defineAccessorOwn (s : Store) (key : PropKey) (getter setter : Option Nat) (attrs : Attrs) :
    Store × Answer :=
  match s.tree.defineAccessor s.object.shape key getter setter attrs with
  | none => (s, .fault)
  | some r => ((s.bindShape r).reserve (r.1.numOwn r.2 - 1 + 1), .done)

/-- `op_define_method`. -/
def opDefineMethod (s : Store) (key : PropKey) (value : JsValue) : Store × Answer :=
  match s.record key with
  | some (.data _ slot attrs) =>
    let s' := s.growCell (s.slotIndex slot) value .hole
    if attrs = .builtin then (s', .done)
    else
      match s'.tree.updateDataAttrs s'.object.shape key .builtin with
      | none => (s', .fault)
      | some r => (s'.bindShape r, .done)
  | some (.accessor ..) => (s, .refused)
  | none =>
    match s.tree.addProperty s.object.shape key .builtin with
    | none => (s, .fault)
    | some r => ((s.bindShape r).pushCell value, .done)

/-- The refusals of `ordinary_define_from_own_desc` on a non-configurable
property. -/
def refusesOwnDesc (current : OwnProperty) (d : PartialDescriptor) : Bool :=
  match current with
  | .data value attrs =>
    !attrs.configurable &&
      (d.configurable == some true || (!d.isData && !d.isGeneric) ||
        (!attrs.writable && (d.writable == some true || d.value.any fun v => v ≠ value)))
  | .accessor _ _ attrs =>
    !attrs.configurable && (d.configurable == some true || (d.isData && !d.isGeneric))

/-- `ordinary_define_from_own_desc` and `apply_own_desc`. -/
def ordinaryDefineFromOwnDesc (s : Store) (key : PropKey) (d : PartialDescriptor) :
    Store × Answer :=
  match s.ordinaryOwnDescriptor key with
  | some current =>
    if refusesOwnDesc current d then (s, .refused)
    else
      let attrs := d.mergedAttrs current.base
      match d.isAccessor, current with
      | true, _ | false, .accessor .. =>
        s.defineAccessorOwn key (d.get.getD none) (d.set.getD none) attrs
      | false, .data .. =>
        match d.value with
        | some v => s.defineOwnDataAttrs key v attrs
        | none => (s, .done)
  | none =>
    if !s.extensible then (s, .refused)
    else if d.isAccessor then
      s.defineAccessorOwn key (d.get.getD none) (d.set.getD none) d.freshAttrs
    else
      match d.value with
      | some v => s.defineOwnDataAttrs key v d.freshAttrs
      | none => (s, .done)

/-- `delete_property`; `refused` reports `false`. -/
def deleteProperty (s : Store) (key : PropKey) : Store × Answer :=
  match s.entry key with
  | some e =>
    if e.attrs.configurable then ((s.removeEntry key).setCell e.slot .hole, .done)
    else (s, .refused)
  | none =>
    match s.record key with
    | none => (s, .done)
    | some d =>
      if d.attrs.configurable then
        match d with
        | .data _ slot _ => s.writeCell (s.slotIndex slot) .hole
        | .accessor .. =>
          match s.tree.updateDataAttrs s.object.shape key .default with
          | none => (s, .fault)
          | some r =>
            match (s.bindShape r).record key with
            | some (.data _ slot _) =>
              ((s.bindShape r).growCell (s.slotIndex slot) .hole .hole, .done)
            | _ => (s, .fault)
      else (s, .refused)

/-! ## §5 The engine's reads -/

/-- The value `ordinary_get_own_property` reports; for its callers a hole is an
absent property. -/
def reported (s : Store) (slot : Nat) : Option JsValue :=
  some ((s.cell slot).getD .undefined) |>.filter fun v => !v.isHole

/-- `ordinary_get_own_property`, with the functions of an accessor. -/
def ordinaryGetOwnProperty (s : Store) (key : PropKey) : Option OwnProperty :=
  match s.entry key with
  | some e =>
    if e.isAccessor then some (.accessor e.getter e.setter e.attrs)
    else (s.reported e.slot).map fun v => .data v e.attrs
  | none =>
    match s.record key with
    | some (.data _ slot attrs) => (s.reported slot).map fun v => .data v attrs
    | some (.accessor _ getter setter attrs) => some (.accessor getter setter attrs)
    | none => none

/-- The object's own level of `ordinary_get`. -/
def ordinaryGet (s : Store) (key : PropKey) : Option OwnRead :=
  let shapeLevel : Option OwnRead :=
    match s.record key with
    | some (.data _ slot _) => (s.liveCell slot).map .value
    | some (.accessor _ getter _ _) => some (.getter getter)
    | none => none
  match s.entry key with
  | some e =>
    if e.isAccessor then some (.getter e.getter)
    else ((s.liveCell e.slot).map OwnRead.value).or shapeLevel
  | none => shapeLevel

/-- The object's own level of `ordinary_has_property`. -/
def ordinaryHasProperty (s : Store) (key : PropKey) : Bool :=
  match s.entry key with
  | some e => e.isAccessor || (s.liveCell e.slot).isSome
  | none =>
    match s.record key with
    | some (.data _ slot _) => (s.liveCell slot).isSome
    | some (.accessor ..) => true
    | none => false

def records (s : Store) : List Descriptor :=
  ((s.tree.get? s.object.shape).map fun p => p.descriptors.asSlice).getD []

/-! ## §6 The engine's writes -/

/-- `NAMED_DICT_THRESHOLD`. -/
def namedDictThreshold : Nat := 128

/-- `store_shape_extension`: arrays and arguments objects store at the slot, the
other kinds push. -/
def storeShapeExtension (s : Store) (value : JsValue) : Store :=
  match s.object.kind with
  | .array | .arguments => s.growCell (s.numOwn - 1) value .hole
  | _ => s.pushCell value

/-- The extension of `ordinary_set`, `ordinary_define_own_property` and
`apply_property_descriptor`. -/
def extend (s : Store) (key : PropKey) (value : JsValue) (attrs : Attrs) : Store × Answer :=
  if s.object.dictionary.isSome then (s.insertEntry key value attrs, .done)
  else if s.numOwn ≥ namedDictThreshold then (s.spill.insertEntry key value attrs, .done)
  else
    match s.tree.addProperty s.object.shape key attrs with
    | none => (s, .fault)
    | some r => ((s.bindShape r).storeShapeExtension value, .done)

/-- `ordinary_set`: the dictionary first, then the shape; a setter is
acknowledged and not called. -/
def ordinarySet (s : Store) (key : PropKey) (value : JsValue) (inherited : Inherited) :
    Store × Answer :=
  match s.entry key with
  | some e =>
    if e.isAccessor then (s, if e.setter.isSome then .done else .refused)
    else if e.attrs.writable then (s.growCell e.slot value .hole, .done)
    else (s, .refused)
  | none =>
    match s.record key with
    | some (.data _ slot attrs) =>
      if attrs.writable then s.writeCell slot value else (s, .refused)
    | some (.accessor _ _ setter _) => (s, if setter.isSome then .done else .refused)
    | none =>
      match inherited with
      | .data false | .accessor none => (s, .refused)
      | .accessor (some _) => (s, .done)
      | .data true | .missing | .proxy =>
        if s.extensible then s.extend key value .default else (s, .refused)

/-- `ordinary_define_own_property`. -/
def ordinaryDefineOwnProperty (s : Store) (key : PropKey) (value : Option JsValue)
    (attrs : Attrs) : Store × Answer :=
  match s.entry key with
  | some e =>
    if e.isAccessor then (s, .done)
    else if value.isSome && !e.attrs.writable then (s, .refused)
    else
      let s' := match value with
        | some v => s.growCell e.slot v .hole
        | none => s
      (s'.updateEntry key fun e => { e with attrs := attrs }, .done)
  | none =>
    match s.record key with
    | some (.data _ slot current) =>
      if value.isSome && !current.writable then (s, .refused)
      else
        let s' := match value with
          | some v => s.growCell slot v .hole
          | none => s
        if attrs = current then (s', .done)
        else
          match s'.tree.updateDataAttrs s'.object.shape key attrs with
          | none => (s', .fault)
          | some r => (s'.bindShape r, .done)
    | some (.accessor ..) => (s, .done)
    | none =>
      if s.extensible then s.extend key (value.getD .undefined) attrs else (s, .refused)

/-- `validate_redefine`, with the `SameValue` of the heap. -/
def validateRedefine (sameValue : JsValue → JsValue → Bool) (attrs : Attrs) (isAccessor : Bool)
    (value : JsValue) (getter setter : Option Nat) (d : PartialDescriptor) : Bool :=
  if attrs.configurable then true
  else if d.configurable == some true then false
  else if d.enumerable.any fun e => e ≠ attrs.enumerable then false
  else
    match isAccessor, d.isAccessor with
    | true, false => !d.isData
    | false, true => false
    | false, false =>
      attrs.writable ||
        (d.writable != some true && d.value.all fun v => sameValue v value)
    | true, true => d.get.all (fun g => g = getter) && d.set.all fun f => f = setter

/-- `install_new_accessor`. -/
def installNewAccessor (s : Store) (key : PropKey) (d : PartialDescriptor) : Store × Answer :=
  let getter := d.get.getD none
  let setter := d.set.getD none
  let attrs := attrsOf false (d.enumerable.getD false) (d.configurable.getD false)
  if s.object.dictionary.isSome || s.numOwn ≥ namedDictThreshold then
    (s.withObject (Machine.convertKeyToAccessor s.object s.numOwn key attrs getter setter), .done)
  else
    match s.tree.defineAccessor s.object.shape key getter setter attrs with
    | none => (s, .fault)
    | some r => ((s.bindShape r).reserve (r.1.numOwn r.2 - 1 + 1), .done)

def appliedEntry (d : PartialDescriptor) (e : DictEntry) : DictEntry :=
  let halves : DictEntry :=
    if e.isAccessor then
      if d.isAccessor then { e with getter := d.get.getD e.getter, setter := d.set.getD e.setter }
      else e
    else if d.isAccessor then
      { e with isAccessor := true, getter := d.get.getD none, setter := d.set.getD none }
    else e
  { halves with attrs := d.mergedAttrs e.attrs }

/-- `apply_property_descriptor`. -/
def applyPropertyDescriptor (sameValue : JsValue → JsValue → Bool) (s : Store) (key : PropKey)
    (d : PartialDescriptor) : Store × Answer :=
  match s.entry key with
  | some e =>
    let value := if e.isAccessor then .undefined else (s.cell e.slot).getD .undefined
    if !validateRedefine sameValue e.attrs e.isAccessor value e.getter e.setter d then (s, .refused)
    else
      let s' := match d.value with
        | some v => if e.isAccessor || d.isAccessor then s else s.growCell e.slot v .hole
        | none => s
      (s'.updateEntry key (appliedEntry d), .done)
  | none =>
    match s.record key with
    | some (.accessor _ getter setter attrs) =>
      if !validateRedefine sameValue attrs true .undefined getter setter d then (s, .refused)
      else if d.isAccessor then
        match s.tree.defineAccessor s.object.shape key (d.get.getD getter) (d.set.getD setter)
            attrs with
        | none => (s, .fault)
        | some r => (s.bindShape r, .done)
      else
        (s.withObject
          (Machine.convertKeyToData s.object s.numOwn key (d.mergedAttrs attrs) d.value), .done)
    | some (.data _ slot attrs) =>
      if !validateRedefine sameValue attrs false ((s.cell slot).getD .undefined) none none d then
        (s, .refused)
      else if d.isAccessor then
        (s.withObject
          (Machine.convertKeyToAccessor s.object s.numOwn key attrs (d.get.getD none)
            (d.set.getD none)), .done)
      else
        let s' := match d.value with
          | some v => s.growCell slot v .hole
          | none => s
        if d.mergedAttrs attrs = attrs then (s', .done)
        else
          match s'.tree.updateDataAttrs s'.object.shape key (d.mergedAttrs attrs) with
          | none => (s', .fault)
          | some r => (s'.bindShape r, .done)
    | none =>
      if !s.extensible then (s, .refused)
      else if d.isAccessor then s.installNewAccessor key d
      else s.extend key (d.value.getD .undefined) d.freshAttrs

/-- `ordinary_delete`; a shape's accessor record stays. -/
def ordinaryDelete (s : Store) (key : PropKey) : Store × Answer :=
  match s.entry key with
  | some e =>
    if e.attrs.configurable then ((s.removeEntry key).setCell e.slot .hole, .done)
    else (s, .refused)
  | none =>
    match s.record key with
    | none => (s, .done)
    | some d =>
      if d.attrs.configurable then
        match d with
        | .data _ slot _ => s.writeCell slot .hole
        | .accessor .. => (s, .done)
      else (s, .refused)

end Store

end V12.Named
