/-
V12.Interp.Roots — what an interpreter holds, and what it hands to the
collector, from `v12-interp/src/lib.rs` (`Interp`, `Frame`, `gc_protect`,
`set_frame_arguments`, `drop_frame_arguments`), `eval_context.rs`,
`generator.rs` (`suspend`) and what pops a frame in `complete_frame` and
`unwind`.

`Op` are the steps between two safepoints, in any order: calls of the heap,
frames, assignments to the fields, nested interpreters. `Provenance` holds of
every handle a step stores: the step could name it.
-/
import V12.Heap.Gc

namespace V12.Roots

open V12.Heap

/-! ## §1 The holders -/

/-- `EvalBindingRef`. -/
inductive EvalBindingRef where
  | register (base reg : Nat)
  | env (env slot : Nat)
  | evalLocal (env slot : Nat)
  | global
  | arguments (frame : Nat)

def EvalBindingRef.refs : EvalBindingRef → List Ref
  | .env i _ | .evalLocal i _ => [(.objects, i)]
  | .register .. | .global | .arguments _ => []

/-- `EvalCallerContext`, the fields that hold handles. -/
structure EvalCallerContext where
  localEnv : Option Nat
  this : JsValue
  env : Option Nat
  newTarget : Option JsValue
  arguments : Option EvalBindingRef
  bindings : List (String × EvalBindingRef)

def EvalCallerContext.refs (c : EvalCallerContext) : List Ref :=
  traceHandle .objects c.localEnv ++ trace c.this ++ traceHandle .objects c.env ++
  trace c.newTarget ++ c.arguments.toList.flatMap EvalBindingRef.refs ++
  c.bindings.flatMap fun b => b.2.refs

/-- `Frame`: its window of the stack and the handles it holds. -/
structure Frame where
  base : Nat
  env : Option Nat
  envDisplay : List (Option Nat)
  generator : Option Nat
  newTarget : Option JsValue
  arguments : Option JsValue

def Frame.refs (f : Frame) : List Ref :=
  traceHandle .objects f.env ++ traceHandle .objects f.generator ++
  f.envDisplay.flatMap (traceHandle .objects) ++ trace f.newTarget ++ trace f.arguments

/-- `Interp`, the fields that hold handles. `frames` has the innermost first;
`cachedStrings` are the values of `const_strings`, `typeof_names` and `wk_keys`. -/
structure Interp where
  mainEnv : Option Nat
  cachedStrings : List Nat
  lengthShape : Option Nat
  stack : List JsValue
  frames : List Frame
  evalContexts : List (Nat × EvalCallerContext)
  evalFrameContexts : List (Nat × EvalCallerContext)
  global : Option Nat
  consoleLog : Option JsValue
  promiseResolveFn : Option JsValue
  promiseRejectFn : Option JsValue
  promiseThenFn : Option JsValue
  promiseCatchFn : Option JsValue
  arrayPushFn : Option JsValue
  arrayJoinFn : Option JsValue
  enumerableOwnKeysFn : Option JsValue
  generatorNextFn : Option JsValue
  generatorReturnFn : Option JsValue
  generatorThrowFn : Option JsValue
  symbolIterator : Option Nat
  symbolAsyncIterator : Option Nat
  symbolSpecies : Option Nat
  topResult : Option JsValue
  scratchRoots : List JsValue
  pendingAwaits : List (Nat × JsValue × Bool)
  pendingSettlements : List (Nat × JsValue × Bool)
  pendingAdoptions : List (Nat × JsValue × JsValue × Bool)

/-- The kinds of fields in which an interpreter holds handles. -/
inductive Holder where
  | register
  | frameEnv
  | frameGenerator
  | frameDisplay
  | frameNewTarget
  | frameArguments
  | mainEnv
  | evalContext
  | pendingAwait
  | pendingSettlement
  | pendingAdoption
  | topResult
  | scratchRoot
  | iteratorSymbol
  | speciesSymbol
  | persistent
  | cachedString
  | lengthShape
  deriving DecidableEq, Repr

def Holder.all : List Holder :=
  [.register, .frameEnv, .frameGenerator, .frameDisplay, .frameNewTarget, .frameArguments, .mainEnv,
   .evalContext, .pendingAwait, .pendingSettlement, .pendingAdoption, .topResult, .scratchRoot,
   .iteratorSymbol, .speciesSymbol, .persistent, .cachedString, .lengthShape]

theorem Holder.mem_all (k : Holder) : k ∈ Holder.all := by cases k <;> decide

namespace Interp

/-- `Interp::new` over a global, before its first step. -/
def new (global : Option Nat) : Interp where
  mainEnv := none
  cachedStrings := []
  lengthShape := none
  stack := []
  frames := []
  evalContexts := []
  evalFrameContexts := []
  global := global
  consoleLog := none
  promiseResolveFn := none
  promiseRejectFn := none
  promiseThenFn := none
  promiseCatchFn := none
  arrayPushFn := none
  arrayJoinFn := none
  enumerableOwnKeysFn := none
  generatorNextFn := none
  generatorReturnFn := none
  generatorThrowFn := none
  symbolIterator := none
  symbolAsyncIterator := none
  symbolSpecies := none
  topResult := none
  scratchRoots := []
  pendingAwaits := []
  pendingSettlements := []
  pendingAdoptions := []

/-- The `persistent` table of `gc_protect`. -/
def persistent (i : Interp) : List (Option JsValue) :=
  [i.global.map .object, i.consoleLog, i.promiseResolveFn, i.promiseRejectFn, i.promiseThenFn,
   i.promiseCatchFn, i.arrayPushFn, i.arrayJoinFn, i.enumerableOwnKeysFn, i.generatorNextFn,
   i.generatorReturnFn, i.generatorThrowFn]

def refs (i : Interp) : Holder → List Ref
  | .register => trace i.stack
  | .frameEnv => i.frames.flatMap fun f => traceHandle .objects f.env
  | .frameGenerator => i.frames.flatMap fun f => traceHandle .objects f.generator
  | .frameDisplay => i.frames.flatMap fun f => f.envDisplay.flatMap (traceHandle .objects)
  | .frameNewTarget => i.frames.flatMap fun f => trace f.newTarget
  | .frameArguments => i.frames.flatMap fun f => trace f.arguments
  | .mainEnv => traceHandle .objects i.mainEnv
  | .evalContext => (i.evalContexts ++ i.evalFrameContexts).flatMap fun e => e.2.refs
  | .pendingAwait => i.pendingAwaits.flatMap fun e => (.objects, e.1) :: trace e.2.1
  | .pendingSettlement => i.pendingSettlements.flatMap fun e => (.objects, e.1) :: trace e.2.1
  | .pendingAdoption =>
    i.pendingAdoptions.flatMap fun e => (.objects, e.1) :: (trace e.2.1 ++ trace e.2.2.1)
  | .topResult => trace i.topResult
  | .scratchRoot => trace i.scratchRoots
  | .iteratorSymbol => traceHandle .symbols i.symbolIterator ++ traceHandle .symbols i.symbolAsyncIterator
  | .speciesSymbol => traceHandle .symbols i.symbolSpecies
  | .persistent => trace i.persistent
  | .cachedString => i.cachedStrings.map fun s => (.strings, s)
  | .lengthShape => traceHandle .shapes i.lengthShape

/-- What `gc_protect` pushes after it has cleared the root set. -/
def published (i : Interp) : List JsValue :=
  i.stack ++
  i.frames.flatMap (fun f => (f.env.map JsValue.object).toList ++
    (f.generator.map JsValue.object).toList) ++
  i.pendingAwaits.flatMap (fun e => [.object e.1, e.2.1]) ++
  i.pendingSettlements.flatMap (fun e => [.object e.1, e.2.1]) ++
  i.pendingAdoptions.flatMap (fun e => [.object e.1, e.2.1, e.2.2.1]) ++
  i.topResult.toList ++
  i.scratchRoots ++
  (i.symbolIterator.map JsValue.symbol).toList ++
  (i.symbolAsyncIterator.map JsValue.symbol).toList ++
  i.persistent.flatMap Option.toList

/-- `drop_frame_context` and the truncation to the window's base. -/
def leaveWindow (i : Interp) (base : Nat) : Interp :=
  { i with
    stack := i.stack.take base
    evalFrameContexts := i.evalFrameContexts.filter fun e => e.1 ≠ base }

/-- The nearest materialized `arguments`, and the frames with `val` in its place. -/
def replaceArguments (val : JsValue) : List Frame → Option (JsValue × List Frame)
  | [] => none
  | f :: fs =>
    match f.arguments with
    | some old => some (old, { f with arguments := some val } :: fs)
    | none => (replaceArguments val fs).map fun r => (r.1, f :: r.2)

end Interp

/-- An interpreter over its heap, the interpreters whose `eval` it runs in, what
the queued jobs captured, and the locals of the operations in progress. -/
structure Machine where
  heap : Heap
  interp : Interp
  outer : List Interp
  jobs : List Ref
  locals : List Ref

namespace Machine

def new : Machine where
  heap := .new
  interp := .new none
  outer := []
  jobs := []
  locals := []

def held (m : Machine) : List Ref :=
  (m.interp :: m.outer).flatMap (fun i => Holder.all.flatMap i.refs) ++ m.jobs ++ m.locals

/-- The heap with the root set `gc_protect` gives it. -/
def republished (m : Machine) : Heap := { m.heap with roots := m.interp.published }

/-- `gc_protect`; the growth policy and the stress cadence each may collect. -/
def gcProtect (m : Machine) (growth stress : Bool) : Machine :=
  let grown := if growth then m.republished.forceCollect else m.republished
  { m with heap := if stress then grown.forceCollect else grown }

/-! ## §2 The steps -/

def returned (h : Heap) : GcOp → List Ref
  | .alloc space value => [(space, (h.alloc space value).2)]
  | .internString hash text => [(.strings, (h.internString hash text).2)]
  | .symbolForKey key => [(.symbols, (h.symbolForKey key).2)]
  | .wellKnownSymbol which => [(.symbols, (h.wellKnownSymbol which).2)]
  | _ => []

def call (m : Machine) (op : GcOp) : Machine :=
  { m with heap := m.heap.step op, locals := returned m.heap op ++ m.locals }

/-- The miss of `const_strings`, `typeof_names` and `wk_keys`: intern and keep. -/
def cacheString (m : Machine) (hash : BitVec 32) (text : FlatText) : Machine :=
  let r := m.heap.internString hash text
  { m with
    heap := r.1
    interp := { m.interp with cachedStrings := r.2 :: m.interp.cachedStrings } }

/-- The miss of `array_length_shape`: pin and keep. -/
def cacheLengthShape (m : Machine) (shape : Nat) : Machine :=
  { m with
    heap := m.heap.addShapeRoot shape
    interp := { m.interp with lengthShape := some shape } }

/-- The end of `prepare_call`: the window on the stack, the frame on top. -/
def pushFrame (m : Machine) (frame : Frame) (window : List JsValue) : Machine :=
  { m with interp := { m.interp with
      stack := m.interp.stack ++ window
      frames := frame :: m.interp.frames } }

/-- `drop_frame_arguments`. -/
def dropFrameArguments (h : Heap) (frame : Frame) : Heap :=
  match frame.arguments with
  | some a => h.removeRoot a
  | none => h

/-- A frame leaves, in `complete_frame` and in `unwind`. -/
def popFrame (m : Machine) : Machine :=
  match m.interp.frames with
  | [] => m
  | f :: fs =>
    { m with
      heap := dropFrameArguments m.heap f
      interp := { m.interp with frames := fs }.leaveWindow f.base }

/-- `suspend`: the frame leaves for its generator; the root of its `arguments` stays. -/
def suspend (m : Machine) (val : JsValue) : Machine :=
  match m.interp.frames with
  | [] => m
  | f :: fs =>
    { m with interp := { m.interp with frames := fs, topResult := some val }.leaveWindow f.base }

/-- `set_frame_arguments`. -/
def setFrameArguments (m : Machine) (val : JsValue) : Machine :=
  match Interp.replaceArguments val m.interp.frames, m.interp.frames with
  | some (old, frames), _ =>
    { m with
      heap := (m.heap.removeRoot old).addRoot val
      interp := { m.interp with frames := frames } }
  | none, f :: fs =>
    { m with
      heap := m.heap.addRoot val
      interp := { m.interp with frames := { f with arguments := some val } :: fs } }
  | none, [] => m

/-- The native `eval`: a fresh interpreter over the same heap. -/
def enterEval (m : Machine) (global : Option Nat) : Machine :=
  { m with interp := .new global, outer := m.interp :: m.outer }

def leaveEval (m : Machine) : Machine :=
  match m.outer with
  | [] => m
  | i :: outer => { m with interp := i, outer := outer }

/-- One step of a run. `assign` is any assignment to the interpreter's fields. -/
inductive Op where
  | gcProtect (growth stress : Bool)
  | call (op : GcOp)
  | cacheString (hash : BitVec 32) (text : FlatText)
  | cacheLengthShape (shape : Nat)
  | pushFrame (frame : Frame) (window : List JsValue)
  | popFrame
  | suspend (val : JsValue)
  | setFrameArguments (val : JsValue)
  | assign (next : Interp)
  | setLocals (locals : List Ref)
  | setJobs (jobs : List Ref)
  | enterEval (global : Option Nat)
  | leaveEval

def step (m : Machine) : Op → Machine
  | .gcProtect growth stress => m.gcProtect growth stress
  | .call op => m.call op
  | .cacheString hash text => m.cacheString hash text
  | .cacheLengthShape shape => m.cacheLengthShape shape
  | .pushFrame frame window => m.pushFrame frame window
  | .popFrame => m.popFrame
  | .suspend val => m.suspend val
  | .setFrameArguments val => m.setFrameArguments val
  | .assign next => { m with interp := next }
  | .setLocals locals => { m with locals := locals }
  | .setJobs jobs => { m with jobs := jobs }
  | .enterEval global => m.enterEval global
  | .leaveEval => m.leaveEval

/-! ## §3 The handles a step can name -/

/-- What a step can follow from a cell: what it reports, and transition edges. -/
def follows (h : Heap) (r : Ref) : List Ref :=
  match h.get r with
  | some cell => trace cell ++ weakRefs r.1 cell
  | none => []

/-- A handle some step has read: from a holder, from the heap's own tables, from
a cell either leads to, or from anywhere else while its slot is live. -/
def CanName (m : Machine) (r : Ref) : Prop :=
  Lib.Reach m.heap.inRange (follows m.heap) (m.held ++ m.heap.rootRefs) r ∨ m.heap.isAlive r = true

def given : GcOp → List Ref
  | .alloc space value => trace value ++ weakRefs space value
  | .write space i value => (space, i) :: (trace value ++ weakRefs space value)
  | .addRoot value => trace value
  | .addShapeRoot shape => [(.shapes, shape)]
  | .bindShape obj shape => [(.objects, obj), (.shapes, shape)]
  | .registerRealmGlobal i | .addModuleRoot i | .addPinnedRoot i => [(.objects, i)]
  | .setRoots _ | .removeRoot _ | .deregisterRealmGlobal _ | .internString .. | .symbolForKey _
  | .wellKnownSymbol _ | .sweepStep _ | .forceCollect => []

/-- The calls that only `gc_protect` makes. -/
def Collects : GcOp → Prop
  | .setRoots _ | .forceCollect => True
  | _ => False

/-- **The contract**: a step stores handles it could name, and only `gc_protect`
replaces the root set or collects. -/
def Provenance (m : Machine) : Op → Prop
  | .gcProtect .. | .cacheString .. | .popFrame | .leaveEval => True
  | .call op => ¬ Collects op ∧ ∀ r ∈ given op, m.CanName r
  | .cacheLengthShape shape => m.CanName (.shapes, shape)
  | .pushFrame frame window => ∀ r ∈ frame.refs ++ trace window, m.CanName r
  | .suspend val | .setFrameArguments val => ∀ r ∈ trace val, m.CanName r
  | .assign next =>
    (∀ k, ∀ r ∈ next.refs k, m.CanName r) ∧ next.cachedStrings ⊆ m.interp.cachedStrings ∧
      (next.lengthShape = none ∨ next.lengthShape = m.interp.lengthShape)
  | .setLocals locals => ∀ r ∈ locals, m.CanName r
  | .setJobs jobs => ∀ r ∈ jobs, m.CanName r
  | .enterEval global => ∀ r ∈ traceHandle .objects global, m.CanName r

/-! ## §4 The root set is complete -/

def SameCell : (space : Space) → Cell space → Cell space → Prop
  | .shapes, (s : Shape), (s' : Shape) => { s' with transitions := s.transitions } = s
  | .objects, c, c' | .strings, c, c' | .symbols, c, c' | .bigints, c, c' => c' = c

def Preserved (h h' : Heap) (r : Ref) : Prop :=
  h'.isAlive r = true ∧
    ∀ cell, h.get r = some cell → ∃ cell', h'.get r = some cell' ∧ SameCell r.1 cell cell'

/-- The cells that later steps can read: from any holder, through what cells report. -/
def Readable (m : Machine) (r : Ref) : Prop := Lib.Reach m.heap.inRange m.heap.referents m.held r

/-- **The root set at a safepoint is complete**: each held handle is one of the
roots the collector is given or is kept by them, and a collection here leaves
everything readable as it is. -/
structure RootsComplete (m : Machine) : Prop where
  rooted : ∀ r ∈ m.held, m.republished.Reachable r
  harmless : ∀ r, m.Readable r → Preserved m.heap m.republished.forceCollect r

/-- The kinds of holders `gc_protect` republishes. -/
def Republished : Holder → Bool
  | .register | .frameEnv | .frameGenerator | .pendingAwait | .pendingSettlement | .pendingAdoption
  | .topResult | .scratchRoot | .iteratorSymbol | .persistent => true
  | .frameDisplay | .frameNewTarget | .frameArguments | .mainEnv | .evalContext | .speciesSymbol
  | .cachedString | .lengthShape => false

/-- The kinds whose handles are in a permanent table of the heap from the start. -/
def Permanent : Holder → Bool
  | .cachedString | .lengthShape => true
  | _ => false

/-- What the running interpreter holds in republished fields, and the heap's
permanent tables. -/
def anchors (m : Machine) : List Ref :=
  (Holder.all.filter Republished).flatMap m.interp.refs ++ { m.heap with roots := [] }.rootRefs

/-- What is held elsewhere: the other fields of the running interpreter, the
interpreters below a nested `eval`, queued jobs, locals. -/
def exposed (m : Machine) : List Ref :=
  (Holder.all.filter fun k => !Republished k && !Permanent k).flatMap m.interp.refs ++
  m.outer.flatMap (fun i => (Holder.all.filter fun k => !Permanent k).flatMap i.refs) ++
  m.jobs ++ m.locals

def Covered (m : Machine) : Op → Prop
  | .gcProtect .. => ∀ r ∈ m.exposed, Lib.Reach m.heap.inRange m.heap.referents m.anchors r
  | _ => True

end Machine

end V12.Roots
