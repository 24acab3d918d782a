/-
V12.Interp.Prototypes — the writers of an object's [[Prototype]].

Every routine of the interpreter and of the engine that writes the
`prototype` of an existing object, over a heap of kinds, extensibility and
prototypes. Fresh objects come in through `alloc`. The realm installs no
`__proto__` accessor, so `o.__proto__ = v` is no writer.
-/
import V12.Lib.Chain
import V12.Lib.Run

namespace V12.Interp.Prototypes

open Lib.Chain

/-! ## §1 The heap -/

abbrev Handle := Nat

/-- The kinds the writers tell apart. -/
inductive Kind
  | ordinary | function | proxy | moduleNamespace
  deriving DecidableEq, Repr

structure JsObject where
  kind : Kind
  /-- `FLAG_NOT_EXTENSIBLE` is clear. -/
  extensible : Bool
  prototype : Option Handle
  deriving DecidableEq, Repr

inductive JsValue
  | undefined | null | primitive
  | object (h : Handle)
  deriving DecidableEq, Repr

def JsValue.asObject : JsValue → Option Handle
  | .object h => some h
  | _ => none

/-- The objects in the order of their allocation; a prototype is always
an allocated object. -/
structure Heap where
  objects : List JsObject
  closed : ∀ o ∈ objects, ∀ p, o.prototype = some p → p < objects.length

namespace Heap

variable (s : Heap)

def size : Nat := s.objects.length

def isA (h : Handle) (k : Kind) : Bool := (s.objects[h]?).any (·.kind = k)

def extensible (h : Handle) : Bool := (s.objects[h]?).any (·.extensible)

def prototype (h : Handle) : Option Handle := (s.objects[h]?).bind (·.prototype)

/-- `heap.get_mut(obj).prototype = proto`. -/
def setPrototype (h : Handle) (p : Option Handle) : Heap :=
  if hp : ∀ q, p = some q → q < s.objects.length then
    { objects := s.objects.modify h fun o => { o with prototype := p }
      closed := by
        intro o ho q hq
        rw [List.length_modify]
        rcases List.mem_iff_getElem.1 ho with ⟨i, hi, rfl⟩
        rw [List.getElem_modify] at hq
        split at hq
        · exact hp q hq
        · exact s.closed _ (List.getElem_mem _) q hq }
  else s

/-- `heap.alloc` of an object that starts with the prototype `p`. -/
def alloc (k : Kind) (p : Option Handle) : Heap :=
  if hp : ∀ q, p = some q → q < s.objects.length then
    { objects := s.objects ++ [⟨k, true, p⟩]
      closed := by
        intro o ho q hq
        simp only [List.length_append, List.length_singleton]
        rcases List.mem_append.1 ho with ho | ho
        · exact Nat.lt_add_one_of_lt (s.closed o ho q hq)
        · rw [List.mem_singleton.1 ho] at hq
          exact Nat.lt_add_one_of_lt (hp q hq) }
  else s

/-- `flags |= FLAG_NOT_EXTENSIBLE`. -/
def preventExtensions (h : Handle) : Heap :=
  { objects := s.objects.modify h fun o => { o with extensible := false }
    closed := by
      intro o ho q hq
      rw [List.length_modify]
      rcases List.mem_iff_getElem.1 ho with ⟨i, hi, rfl⟩
      rw [List.getElem_modify] at hq
      split at hq <;> exact s.closed _ (List.getElem_mem _) q hq }

/-- `while let Some(c) = cur { if hit(c) { break } cur = heap.get(c).prototype }`.
A walk that comes back visits each object at most once. -/
def protoWalk (hit : Handle → Bool) (start : Option Handle) : Option (Option Handle) :=
  walk s.prototype hit s.size start

def Acyclic : Prop := Lib.Chain.Acyclic s.prototype

end Heap

/-! ## §2 The routines -/

inductive Outcome
  /-- Returned normally (`Ok(())`, `true`, the object). -/
  | ok
  /-- Returned `false`. -/
  | isFalse
  | typeError (message : String)
  /-- Handed to the proxy's trap or to its target. -/
  | dispatched
  /-- A chain walk that does not come back. -/
  | diverges
  deriving DecidableEq, Repr

/-- The operation is refused: the caller gets `false` or a `TypeError`. -/
def Outcome.Refuses : Outcome → Prop
  | .isFalse => True
  | .typeError _ => True
  | _ => False

/-- `op_set_prototype`: the `SetPrototype` opcode of the class set-up. -/
def opSetPrototype (s : Heap) (objV protoV : JsValue) : Heap × Outcome :=
  match objV.asObject with
  | none => (s, .typeError "cannot set prototype of a primitive")
  | some obj =>
    if protoV = .null then
      if !s.extensible obj then (s, .ok) else (s.setPrototype obj none, .ok)
    else match protoV.asObject with
      | none => (s, .typeError "prototype must be an object or null")
      | some proto =>
        if !s.extensible obj then (s, .ok)
        else match s.protoWalk (· = obj) (some proto) with
          | none => (s, .diverges)
          | some (some _) => (s, .typeError "cyclic [[Prototype]] value")
          | some none => (s.setPrototype obj (some proto), .ok)

/-- The checks that the interpreter's `object_set_prototype_of` and the
engine's `reflect_set_prototype_of` share: the same value is a success,
a non-extensible object and a cycle are refused. -/
def checkedSetPrototypeOf (s : Heap) (obj : Handle) (link : Option Handle) : Heap × Outcome :=
  if link = s.prototype obj then (s, .ok)
  else if !s.extensible obj then (s, .isFalse)
  else match s.protoWalk (· = obj) link with
    | none => (s, .diverges)
    | some (some _) => (s, .isFalse)
    | some none => (s.setPrototype obj link, .ok)

/-- The interpreter's `object_set_prototype_of`. -/
def objectSetPrototypeOf (s : Heap) (obj : Handle) (proto : Option Handle) : Heap × Outcome :=
  if s.isA obj .proxy then (s, .dispatched) else checkedSetPrototypeOf s obj proto

/-- `set_proto_arg`. -/
def setProtoArg (v : JsValue) : Except String (Option Handle) :=
  if v = .null then .ok none
  else match v.asObject with
    | some h => .ok (some h)
    | none => .error "prototype must be an object or null"

/-- The engine's native `Object.setPrototypeOf`. -/
def engineObjectSetPrototypeOf (s : Heap) (objV proto : JsValue) : Heap × Outcome :=
  match objV.asObject with
  | none => (s, .ok)
  | some obj =>
    if proto = .null then (s.setPrototype obj none, .ok)
    else match proto.asObject with
      | some h => (s.setPrototype obj (some h), .ok)
      | none =>
        (s, .typeError "TypeError: Object.setPrototypeOf prototype must be object or null")

/-- The engine's native `Reflect.setPrototypeOf`; `this` is a function
when it is called with `new`. -/
def engineReflectSetPrototypeOf (s : Heap) (this objV proto : JsValue) : Heap × Outcome :=
  if this.asObject.any (s.isA · .function) then
    (s, .typeError "Reflect.setPrototypeOf is not a constructor")
  else match objV.asObject with
    | none => (s, .typeError "Reflect.setPrototypeOf target is not an object")
    | some obj =>
      if proto = .null then checkedSetPrototypeOf s obj none
      else match proto.asObject with
        | none => (s, .typeError "Reflect.setPrototypeOf proto must be an object or null")
        | some h => checkedSetPrototypeOf s obj (some h)

/-- `run_proxy_static`: receivers that the interpreter keeps for itself. -/
def routed (s : Heap) (v : JsValue) : Option Handle :=
  v.asObject.filter fun h => s.isA h .proxy || s.isA h .moduleNamespace

/-- A call of `Object.setPrototypeOf`. -/
def callObjectSetPrototypeOf (s : Heap) (objV proto : JsValue) : Heap × Outcome :=
  match routed s objV with
  | none => engineObjectSetPrototypeOf s objV proto
  | some obj =>
    match setProtoArg proto with
    | .error e => (s, .typeError e)
    | .ok link =>
      match objectSetPrototypeOf s obj link with
      | (t, .isFalse) => (t, .typeError "cannot set prototype of a non-extensible object")
      | r => r

/-- A call of `Reflect.setPrototypeOf`. -/
def callReflectSetPrototypeOf (s : Heap) (this objV proto : JsValue) : Heap × Outcome :=
  match routed s objV with
  | none => engineReflectSetPrototypeOf s this objV proto
  | some obj =>
    match setProtoArg proto with
    | .error e => (s, .typeError e)
    | .ok link => objectSetPrototypeOf s obj link

/-- `ordinary_set_prototype_of`. -/
def ordinarySetPrototypeOf (s : Heap) (obj : Handle) (proto : Option Handle) : Heap × Outcome :=
  if !s.extensible obj then (s, .isFalse) else (s.setPrototype obj proto, .ok)

/-- The engine's internal method, through `methods_for(kind_of(obj))`. -/
def dispatchSetPrototypeOf (s : Heap) (obj : Handle) (proto : Option Handle) : Heap × Outcome :=
  if s.isA obj .proxy then
    (s, .typeError "TypeError: proxy [[SetPrototypeOf]] trap not implemented")
  else ordinarySetPrototypeOf s obj proto

/-- `adopt_new_target_prototype`: a native constructor's result takes the
prototype of `new.target`. `Object(o)` returns `o` itself, so the result
can be an object that exists already. -/
def adoptNewTargetPrototype (s : Heap) (result calleeV newTarget : JsValue)
    (proto : Option Handle) : Heap × Outcome :=
  if newTarget = calleeV then (s, .ok)
  else match proto with
    | none => (s, .typeError "no prototype for new.target")
    | some p =>
      match result with
      | .undefined | .null => (s, .ok)
      | .primitive => (s.alloc .ordinary (some p), .ok)
      | .object obj => (s.setPrototype obj (some p), .ok)

/-- The end of a `SuspendYield`: the generator keeps the frame's
environment in its prototype. -/
def suspendGenerator (s : Heap) (gen : Handle) (env : Option Handle) : Heap × Outcome :=
  (s.setPrototype gen env, .ok)

/-- `regexp_prototype_surface` on the `RegExp` constructor. -/
def regexpPrototypeSurface (s : Heap) (ctor : Handle) : Heap × Outcome :=
  match s.prototype ctor with
  | some _ => (s, .ok)
  | none => ((s.alloc .ordinary none).setPrototype ctor (some s.size), .ok)

/-! ## §3 Steps -/

/-- One operation on the prototype graph, from each entry point. -/
inductive Op
  | objectSetPrototypeOf (obj proto : JsValue)
  | reflectSetPrototypeOf (this obj proto : JsValue)
  /-- The request a proxy without a trap passes on to its target. -/
  | proxyTarget (obj : Handle) (proto : Option Handle)
  | setPrototypeOpcode (obj proto : JsValue)
  | internalMethod (obj : Handle) (proto : Option Handle)
  | construct (result callee newTarget : JsValue) (proto : Option Handle)
  | suspendYield (gen : Handle) (env : Option Handle)
  | regexpPrototype (ctor : Handle)
  | alloc (kind : Kind) (proto : Option Handle)
  | preventExtensions (obj : Handle)
  deriving DecidableEq, Repr

def Op.handles : Op → List Handle
  | .objectSetPrototypeOf obj proto => obj.asObject.toList ++ proto.asObject.toList
  | .reflectSetPrototypeOf this obj proto =>
    this.asObject.toList ++ obj.asObject.toList ++ proto.asObject.toList
  | .proxyTarget obj proto => obj :: proto.toList
  | .setPrototypeOpcode obj proto => obj.asObject.toList ++ proto.asObject.toList
  | .internalMethod obj proto => obj :: proto.toList
  | .construct result callee newTarget proto =>
    result.asObject.toList ++ callee.asObject.toList ++ newTarget.asObject.toList ++ proto.toList
  | .suspendYield gen env => gen :: env.toList
  | .regexpPrototype ctor => [ctor]
  | .alloc _ proto => proto.toList
  | .preventExtensions obj => [obj]

def Op.Live (s : Heap) (op : Op) : Prop := ∀ h ∈ op.handles, h < s.size

instance (s : Heap) (op : Op) : Decidable (op.Live s) :=
  inferInstanceAs (Decidable (∀ h ∈ op.handles, h < s.size))

def perform (s : Heap) : Op → Heap × Outcome
  | .objectSetPrototypeOf obj proto => callObjectSetPrototypeOf s obj proto
  | .reflectSetPrototypeOf this obj proto => callReflectSetPrototypeOf s this obj proto
  | .proxyTarget obj proto => objectSetPrototypeOf s obj proto
  | .setPrototypeOpcode obj proto => opSetPrototype s obj proto
  | .internalMethod obj proto => dispatchSetPrototypeOf s obj proto
  | .construct result callee newTarget proto =>
    adoptNewTargetPrototype s result callee newTarget proto
  | .suspendYield gen env => suspendGenerator s gen env
  | .regexpPrototype ctor => regexpPrototypeSurface s ctor
  | .alloc kind proto => (s.alloc kind proto, .ok)
  | .preventExtensions obj => (s.preventExtensions obj, .ok)

/-- One step of a run. No value holds a handle that the heap has not
given out, so an operation that names one does not occur. -/
def step (s : Heap) (op : Op) : Heap := if op.Live s then (perform s op).1 else s

end V12.Interp.Prototypes
