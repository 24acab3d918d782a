/-
V12.Bccompiler.Destructuring — destructuring patterns, as declarations from
`v12-bccompiler/src/stmt.rs` and as assignments from `v12-bccompiler/src/expr.rs`.

A declaration reads an array pattern through the iterator protocol, unless its
source is an array literal; an assignment reads by index.
-/
import V12.Heap.Object

namespace V12.Destructuring

open V12.Heap (JsValue)

/-! ## §1 Runs -/

/-- The end of a run; `cut` is a run broken off. -/
inductive Res (W α : Type) where
  | ok (a : α) (w : W)
  | throws (v : JsValue) (w : W)
  | cut

def Run (W α : Type) : Type := W → Res W α

instance {W : Type} : Monad (Run W) where
  pure a := fun w => .ok a w
  bind m k := fun w =>
    match m w with
    | .ok a w₁ => k a w₁
    | .throws v w₁ => .throws v w₁
    | .cut => .cut

/-- `body` in an exception range with a handler. -/
def protecting {W α : Type} (body : Run W α) (handler : JsValue → Run W α) : Run W α := fun w =>
  match body w with
  | .throws v w₁ => handler v w₁
  | r => r

def throwing {W α : Type} (v : JsValue) : Run W α := fun w => .throws v w

/-- A property key: a text, or a value behind `ToPropertyKey`. -/
inductive PropertyKey where
  | text (t : String)
  | value (v : JsValue)
  deriving DecidableEq

/-- The instructions of both forms. -/
structure Machine (W : Type) where
  getProperty : JsValue → PropertyKey → Run W JsValue
  setProperty : JsValue → JsValue → JsValue → Run W Unit
  toPropertyKey : JsValue → Run W JsValue
  /-- The code of an expression of the pattern. -/
  expr : Nat → Run W JsValue
  getIterator : JsValue → Run W JsValue
  iteratorNext : JsValue → Run W JsValue
  iteratorClose : JsValue → Bool → Run W Unit
  newArray : Run W JsValue
  copyArrayRest : JsValue → Nat → Run W JsValue
  copyObjectRest : JsValue → List PropertyKey → Run W JsValue
  /-- The `In` tests of the enclosing `with` objects. -/
  hasBinding : String → Run W Unit
  /-- The store to the name's binding. -/
  store : String → JsValue → Run W Unit
  toBoolean : W → JsValue → Bool

/-! ## §2 Patterns -/

/-- A default, with whether it is an array literal without spread elements. -/
structure Default where
  expr : Nat
  isArrayLiteral : Bool

inductive Key where
  | text (t : String)
  | computed (expr : Nat)

mutual

/-- A pattern over names. -/
inductive Pattern where
  | name (n : String)
  | object (props : Props)
  | array (elems : Elems)
  | withDefault (p : Pattern) (default : Default)

/-- The properties of an object pattern, with its rest. -/
inductive Props where
  | nil
  | rest (p : Pattern)
  | prop (key : Key) (p : Pattern) (more : Props)

/-- The elements of an array pattern, with its rest. -/
inductive Elems where
  | nil
  | rest (p : Pattern)
  | hole (more : Elems)
  | elem (p : Pattern) (more : Elems)

end

def Elems.allHoles : Elems → Bool
  | .nil => true
  | .rest _ => false
  | .hole more => more.allHoles
  | .elem .. => false

def Elems.hasRest : Elems → Bool
  | .nil => false
  | .rest _ => true
  | .hole more | .elem _ more => more.hasRest

def Props.isBare : Props → Bool
  | .nil => true
  | .rest _ | .prop .. => false

/-- `properties.is_empty()`. -/
def Props.noProps : Props → Bool
  | .nil | .rest _ => true
  | .prop .. => false

/-- The name `probe_resolve_binding` tests. -/
def Pattern.probed : Pattern → Option String
  | .name n => some n
  | .object _ | .array _ => none
  | .withDefault p _ => p.probed

/-! ## §3 Common code -/

section Code

variable {W : Type} (M : Machine W)

/-- `emit_require_object_coercible`. -/
def requireObjectCoercible (src : JsValue) : Run W Unit := do
  let _ ← M.getProperty src (.text "__coercible__")
  pure ()

def requireWhen (bare : Bool) (src : JsValue) : Run W Unit :=
  if bare then requireObjectCoercible M src else pure ()

/-- `lower_default`: the default's value for `undefined`. -/
def lowerDefault (src : JsValue) (default : Default) : Run W JsValue :=
  if src = .undefined then M.expr default.expr else pure src

/-! ## §4 Declarations -/

/-- `probe_resolve_binding`. -/
def probeResolveBinding (inWith : Bool) (p : Pattern) : Run W Unit :=
  if inWith then
    match p.probed with
    | some n => M.hasBinding n
    | none => pure ()
  else pure ()

def declaredKey : Key → Run W PropertyKey
  | .text t => pure (.text t)
  | .computed e => do
    let k ← M.expr e
    let k ← M.toPropertyKey k
    pure (.value k)

/-- `append_array_binding_value`. -/
def appendValue (array value : JsValue) : Run W Unit := do
  let length ← M.getProperty array (.text "length")
  M.setProperty array length value

def restLoop (iter array : JsValue) : Nat → Run W Unit
  | 0 => fun _ => .cut
  | fuel + 1 => do
    let result ← M.iteratorNext iter
    let isDone ← M.getProperty result (.text "done")
    fun w =>
      if M.toBoolean w isDone then .ok () w
      else
        (do
          let value ← M.getProperty result (.text "value")
          appendValue M array value
          restLoop iter array fuel) w

def ifTrue {α : Type} (v : JsValue) (yes no : Run W α) : Run W α := fun w =>
  if M.toBoolean w v then yes w else no w

/-- One `IteratorNext`, with the `done` it shows. -/
def stepIterator (iter : JsValue) : Run W (JsValue × JsValue) := do
  let result ← M.iteratorNext iter
  let isDone ← M.getProperty result (.text "done")
  pure (result, isDone)

/-- The close behind the last element, without a rest: `last_done` decides. -/
def finishElems (iter : JsValue) : Option JsValue → Run W Unit
  | none => pure ()
  | some lastDone => ifTrue M lastDone (pure ()) (M.iteratorClose iter false)

def newRestArray (elems : Elems) : Run W JsValue :=
  if elems.hasRest then M.newArray else pure .undefined

/-- `array_pattern_store`; `elements` is the code of the elements, on the iterator and the rest's
array. -/
def declareArray (elems : Elems) (elements : JsValue → JsValue → Run W (Option JsValue))
    (src : JsValue) : Run W Unit := do
  requireObjectCoercible M src
  if elems.allHoles then pure ()
  else
    let iter ← M.getIterator src
    let restArray ← newRestArray M elems
    let last ← protecting (elements iter restArray) fun exc => do
      M.iteratorClose iter true
      throwing exc
    finishElems M iter last

mutual

/-- `lower_binding_pattern_known`. -/
def declare (fuel : Nat) (inWith : Bool) : Pattern → Bool → JsValue → Run W Unit
  | .name n, _, src => M.store n src
  | .object props, _, src => do
    requireWhen M props.isBare src
    declareProps fuel inWith props src []
  | .array elems, known, src =>
    if known then do
      requireWhen M elems.allHoles src
      declareFixed fuel inWith elems src 0 []
    else
      declareArray M elems (fun iter restArray =>
        declareElems fuel inWith elems iter restArray (.bool true)) src
  | .withDefault p default, known, src => do
    let chosen ← lowerDefault M src default
    declare fuel inWith p (known && default.isArrayLiteral) chosen

/-- `object_pattern_store`, with the keys excluded so far. -/
def declareProps (fuel : Nat) (inWith : Bool) : Props → JsValue → List PropertyKey → Run W Unit
  | .nil, _, _ => pure ()
  | .rest p, src, excluded => do
    let dst ← M.copyObjectRest src excluded
    declare fuel inWith p false dst
  | .prop key p more, src, excluded => do
    let k ← declaredKey M key
    probeResolveBinding M inWith p
    let tmp ← M.getProperty src k
    declare fuel inWith p false tmp
    declareProps fuel inWith more src (excluded ++ [k])

/-- The elements of an iterated pattern, with the last `done`; `none` behind a rest. -/
def declareElems (fuel : Nat) (inWith : Bool) :
    Elems → JsValue → JsValue → JsValue → Run W (Option JsValue)
  | .nil, _, _, lastDone => pure (some lastDone)
  | .rest p, iter, restArray, _ => do
    restLoop M iter restArray fuel
    declare fuel inWith p false restArray
    pure none
  | .hole more, iter, restArray, _ => do
    let (result, isDone) ← stepIterator M iter
    ifTrue M isDone (pure ()) do
      let _ ← M.getProperty result (.text "value")
      pure ()
    declareElems fuel inWith more iter restArray isDone
  | .elem p more, iter, restArray, _ => do
    let (result, isDone) ← stepIterator M iter
    ifTrue M isDone
      (do
        probeResolveBinding M inWith p
        declare fuel inWith p false .undefined)
      (do
        let value ← M.getProperty result (.text "value")
        probeResolveBinding M inWith p
        declare fuel inWith p false value)
    declareElems fuel inWith more iter restArray isDone

/-- `array_pattern_store_fixed_known` from element `idx` on; `literal` says which of the
source's elements are array literals. -/
def declareFixed (fuel : Nat) (inWith : Bool) : Elems → JsValue → Nat → List Bool → Run W Unit
  | .nil, _, _, _ => pure ()
  | .rest p, src, idx, _ => do
    let dst ← M.copyArrayRest src (idx % 65536)
    declare fuel inWith p true dst
  | .hole more, src, idx, literal => declareFixed fuel inWith more src (idx + 1) literal
  | .elem p more, src, idx, literal => do
    probeResolveBinding M inWith p
    let value ← M.getProperty src (.text (toString idx))
    declare fuel inWith p (literal.getD idx false) value
    declareFixed fuel inWith more src (idx + 1) literal

end

/-- The initializer of a declaration: an array literal, with which of its elements are array
literals, or another expression. A declared pattern has no default of its own; a parameter's,
lowered in the same way, has. -/
def varDecl (fuel : Nat) (inWith : Bool) (literal : Option (List Bool)) (p : Pattern)
    (src : JsValue) : Run W Unit :=
  match p, literal with
  | .array elems, some literal => do
    requireWhen M elems.allHoles src
    declareFixed M fuel inWith elems src 0 literal
  | p, _ => declare M fuel inWith p false src

/-! ## §5 Assignments -/

mutual

/-- `destructure_assign_target`; `none` is a compile error. -/
def assignTarget : Pattern → Option (JsValue → Run W Unit)
  | .name n => some fun val => M.store n val
  | .object props => do
    let code ← assignProps props
    some fun src => do
      requireWhen M props.noProps src
      code src
  | .array elems => do
    let code ← assignElems elems 0
    some fun src => do
      requireWhen M elems.allHoles src
      code src
  | .withDefault p default => do
    let code ← assignTarget p
    some fun raw => do
      let val ← lowerDefault M raw default
      code val

/-- `destructure_assign_object`: the rest is not looked at. -/
def assignProps : Props → Option (JsValue → Run W Unit)
  | .nil | .rest _ => some fun _ => pure ()
  | .prop (.text t) p more => do
    let first ← assignTarget p
    let code ← assignProps more
    some fun src => do
      let raw ← M.getProperty src (.text t)
      first raw
      code src
  | .prop (.computed _) _ _ => none

/-- `destructure_assign_array` from element `index` on. -/
def assignElems : Elems → Nat → Option (JsValue → Run W Unit)
  | .nil, _ => some fun _ => pure ()
  | .rest p, index => do
    let code ← assignTarget p
    some fun src => do
      let dst ← M.copyArrayRest src (min index 65535)
      code dst
  | .hole more, index => assignElems more (index + 1)
  | .elem p more, index => do
    let first ← assignTarget p
    let code ← assignElems more (index + 1)
    some fun src => do
      let raw ← M.getProperty src (.text (toString index))
      first raw
      code src

end

end Code

/-! ## §6 What is asked of a pattern -/

/-- The assignment is compiled and does what the declaration does, for every source value and
in every machine: the same instructions in the same order, with the same end. -/
def AssignHeld (inWith : Bool) (literal : Option (List Bool)) (p : Pattern) : Prop :=
  ∀ (W : Type) (M : Machine W), ∃ code, assignTarget M p = some code ∧
    ∀ src w, ∃ n, ∀ fuel, n ≤ fuel → varDecl M fuel inWith literal p src w = code src w

/-- No probe of an enclosing `with` object is made for the pattern. -/
def Pattern.unprobed (inWith : Bool) (p : Pattern) : Bool := !inWith || p.probed.isNone

mutual

/-- Array patterns only over array literals or where nothing is read, no object rest, no
computed key, no probe. -/
def Pattern.plain (inWith : Bool) : Pattern → Bool → Bool
  | .name _, _ => true
  | .object props, _ => props.plain inWith
  | .array elems, known => elems.allHoles || (known && elems.plain inWith 0 [])
  | .withDefault p default, known => p.plain inWith (known && default.isArrayLiteral)

def Props.plain (inWith : Bool) : Props → Bool
  | .nil => true
  | .rest _ => false
  | .prop (.text _) p more => p.unprobed inWith && p.plain inWith false && more.plain inWith
  | .prop (.computed _) _ _ => false

/-- The elements from `idx` on of a pattern read by index; a rest's start is the same
number in both forms. -/
def Elems.plain (inWith : Bool) : Elems → Nat → List Bool → Bool
  | .nil, _, _ => true
  | .rest p, idx, _ => idx % 65536 == min idx 65535 && p.plain inWith true
  | .hole more, idx, literal => more.plain inWith (idx + 1) literal
  | .elem p more, idx, literal => p.unprobed inWith && p.plain inWith (literal.getD idx false) &&
    more.plain inWith (idx + 1) literal

end

def declPlain (inWith : Bool) (literal : Option (List Bool)) (p : Pattern) : Bool :=
  match p, literal with
  | .array elems, some literal => elems.allHoles || elems.plain inWith 0 literal
  | p, _ => p.plain inWith false

end V12.Destructuring
