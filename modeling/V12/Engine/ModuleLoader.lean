/-
V12.Engine.ModuleLoader — the module map and the ways to request a module, from
`v12-engine/src/module_loader.rs`.

The recursion of the source is a stack of frames: an active `load_and_evaluate` is an
`eager` frame and a `body` frame behind it, an active `load_deferred` a `deferred`
frame, then a `gather` and a `targets` frame. `advance` takes the next step of the
frame on top. The files and what module bodies do are the graph and the order of labels.
-/
import V12.Lib.Run
import V12.Lib.Assoc
import V12.Engine.ModuleNamespace

namespace V12.ModuleLoader

open V12.ModulePlan V12.ModuleNamespace

/-! ## §1 The graph and the module map -/

/-- `read_and_compile`, and `resolve_specifier` from the directory of a path. -/
structure Graph (P S : Type) where
  read : P → Except String (Module S)
  resolve : P → S → P

variable (P S V : Type)

/-- What a request fails with. -/
inductive Failure where
  /-- The text of `read_and_compile`. -/
  | notRead (message : String)
  /-- `Unlinked module import: '{specifier}'`. -/
  | unlinked (specifier : S)
  /-- `SyntaxError: ambiguous export name '{name}'`. -/
  | ambiguousExport (name : String)
  /-- `The requested module does not provide an export named '{imported}'`. -/
  | missingExport (imported : String)
  /-- `Cannot evaluate a module while it is already evaluating`. -/
  | alreadyEvaluating
  | thrown (v : V)
  /-- An `expect` that fails. -/
  | panics
  deriving DecidableEq, Repr

/-- `LinkedModule`. -/
structure LinkedModule where
  eagerNamespace : Option Nat
  deferredNamespace : Option Nat
  env : Nat
  ownerModuleId : Nat
  bindingPlan : List (BindingPlan S)
  exportStars : List S
  evaluated : Bool
  tlaPending : Bool
  cachedError : Option (Failure S V)
  deriving DecidableEq

/-- A frame, with the local variables of the function that are still read. -/
inductive Frame where
  | eager (path : P) (module : Module S) (namespaceId : Nat) (todo : List (S × Bool))
  | body (path : P) (module : Module S) (namespaceId : Nat)
  | deferred (path : P) (module : Module S) (todo : List (S × Bool))
  | gather (path : P) (pending seen targets : List P)
  | targets (path : P) (todo : List P)

/-- What happened, for the statements below; the code keeps no such list. -/
inductive Event where
  | linked (path : P)
  | started (path : P)
  | completed (path : P)
  | suspended (path : P)
  | threw (path : P) (e : Failure S V)
  /-- The promise of a suspended body settled. -/
  | settled (path : P) (e : Option (Failure S V))
  /-- A request for the path was answered. -/
  | given (path : P) (deferred : Bool) (namespaceId : Nat) (env : Option Nat)
  | refused (path : P) (deferred : Bool) (e : Failure S V)
  deriving DecidableEq

/-- `LoaderState`, the heap, the stack of calls and the queued load jobs. -/
structure State where
  modules : List (P × LinkedModule S V)
  loading : List P
  nextModuleId : Nat
  heap : Heap V
  stack : List (Frame P S)
  jobs : List P
  panicked : Bool
  log : List (Event P S V)

variable {P S V}

def State.empty : State P S V where
  modules := []
  loading := []
  nextModuleId := 0
  heap := ⟨[], [], []⟩
  stack := []
  jobs := []
  panicked := false
  log := []

/-- `LinkedModule::namespace`. -/
def LinkedModule.namespaceOf (record : LinkedModule S V) (deferred : Bool) : Option Nat :=
  if deferred then record.deferredNamespace else record.eagerNamespace

/-- `namespace(deferred).or_else(|| namespace(!deferred))`. -/
def LinkedModule.anyNamespace (record : LinkedModule S V) (deferred : Bool) : Option Nat :=
  (record.namespaceOf deferred).or (record.namespaceOf (!deferred))

def LinkedModule.namespaces (record : LinkedModule S V) : List Nat :=
  record.eagerNamespace.toList ++ record.deferredNamespace.toList

variable [DecidableEq P]

def State.record (s : State P S V) (path : P) : Option (LinkedModule S V) := s.modules.lookup path

def State.modifyRecord (s : State P S V) (path : P)
    (f : LinkedModule S V → LinkedModule S V) : State P S V :=
  { s with modules := s.modules.map fun e => if e.1 = path then (e.1, f e.2) else e }

def State.removeRecord (s : State P S V) (path : P) : State P S V :=
  { s with modules := s.modules.filter fun e => e.1 ≠ path }

def State.leave (s : State P S V) (path : P) : State P S V :=
  { s with loading := s.loading.filter fun p => p ≠ path }

def State.emit (s : State P S V) (event : Event P S V) : State P S V :=
  { s with log := s.log ++ [event] }

/-! ## §2 Linking -/

variable (graph : Graph P S)

/-- The namespace of a child that an `export *` names. -/
def starNamespace (modules : List (P × LinkedModule S V)) (path : P) (specifier : S) :
    Except (Failure S V) Nat :=
  match modules.lookup (graph.resolve path specifier) with
  | none => .error (.unlinked specifier)
  | some child =>
    match child.anyNamespace false with
    | none => .error .panics
    | some namespaceId => .ok namespaceId

/-- The inner loop of `validate_export_stars`. -/
def validateNames (child : P) :
    List String → List (String × P) → Except (Failure S V) (List (String × P))
  | [], owners => .ok owners
  | name :: names, owners =>
    if name = "default" then validateNames child names owners
    else
      match owners.lookup name with
      | some previous =>
        if previous = child then validateNames child names ((name, child) :: owners)
        else .error (.ambiguousExport name)
      | none => validateNames child names ((name, child) :: owners)

/-- `validate_export_stars`. -/
def validateExportStars (modules : List (P × LinkedModule S V)) (heap : Heap V) (path : P) :
    List S → List (String × P) → Option (Failure S V)
  | [], _ => none
  | specifier :: rest, owners =>
    match starNamespace graph modules path specifier with
    | .error e => some e
    | .ok namespaceId =>
      match validateNames (graph.resolve path specifier) (exportNames heap namespaceId) owners with
      | .error e => some e
      | .ok owners => validateExportStars modules heap path rest owners

/-- What `link_export_stars` does with one name. -/
def linkStarName (targets : List Nat) (child : Nat) (heap : Heap V) (name : String) : Heap V :=
  if name = "default" then heap
  else
    match exportCell heap child name with
    | none => heap
    | some cell => targets.foldl (fun heap target => setOrAddExportCell heap target name cell) heap

/-- `link_export_stars`, before the final sort. -/
def linkExportStars (modules : List (P × LinkedModule S V)) (path : P) (targets : List Nat) :
    List S → Heap V → Heap V × Option (Failure S V)
  | [], heap => (heap, none)
  | specifier :: rest, heap =>
    match starNamespace graph modules path specifier with
    | .error e => (heap, some e)
    | .ok child =>
      linkExportStars modules path targets rest
        ((exportNames heap child).foldl (linkStarName targets child) heap)

/-- What `link_binding_cells` does with an import or a re-export. -/
def linkBinding (modules : List (P × LinkedModule S V)) (path : P) (record : LinkedModule S V)
    (slot : Nat) (exports : List String) (specifier : S) (imported : String)
    (reexport deferred : Bool) (heap : Heap V) : Heap V × Option (Failure S V) :=
  match modules.lookup (graph.resolve path specifier) with
  | none => (heap, some (.unlinked specifier))
  | some child =>
    match child.anyNamespace deferred with
    | none => (heap, some .panics)
    | some childNs =>
      if imported = "*" then
        (setEnvValue heap record.env slot (.namespaceObject childNs), none)
      else
        match exportCell heap childNs imported with
        | none => (heap, some (.missingExport imported))
        | some cell =>
          let heap := setEnvCell heap record.env slot cell
          if reexport then
            match exports with
            | [] => (heap, some .panics)
            | name :: _ =>
              (record.namespaces.foldl (fun heap id => setExportCell heap id name cell) heap, none)
          else (heap, none)

/-- `link_binding_cells`, from a slot on. -/
def linkBindingCells (modules : List (P × LinkedModule S V)) (path : P)
    (record : LinkedModule S V) :
    List (BindingPlan S) → Nat → Heap V → Heap V × Option (Failure S V)
  | [], _, heap => (heap, none)
  | binding :: rest, slot, heap =>
    let result :=
      match binding.source with
      | .localBinding | .defaultExpression => (heap, none)
      | .importBinding specifier imported deferred =>
        linkBinding graph modules path record slot binding.exports specifier imported false
          deferred heap
      | .reExport specifier imported =>
        linkBinding graph modules path record slot binding.exports specifier imported true
          false heap
    match result with
    | (heap, some e) => (heap, some e)
    | (heap, none) => linkBindingCells modules path record rest (slot + 1) heap

/-- `link_record`. -/
def linkRecord (modules : List (P × LinkedModule S V)) (path : P) (heap : Heap V) :
    Heap V × Option (Failure S V) :=
  match modules.lookup path with
  | none => (heap, some .panics)
  | some record =>
    match validateExportStars graph modules heap path record.exportStars [] with
    | some e => (heap, some e)
    | none =>
      match linkExportStars graph modules path record.namespaces record.exportStars heap with
      | (heap, some e) => (heap, some e)
      | (heap, none) =>
        linkBindingCells graph modules path record record.bindingPlan 0
          (record.namespaces.foldl sortExports heap)

/-! ## §3 Answers -/

def resume : List (Frame P S) → List (Frame P S)
  | .eager path module namespaceId (_ :: todo) :: rest =>
    .eager path module namespaceId todo :: rest
  | .deferred path module (_ :: todo) :: rest => .deferred path module todo :: rest
  | .targets path (_ :: todo) :: rest => .targets path todo :: rest
  | stack => stack

def State.succeed (s : State P S V) (path : P) (deferred : Bool) (namespaceId : Nat) :
    State P S V :=
  { s with stack := resume s.stack }.emit
    (.given path deferred namespaceId ((s.record path).map LinkedModule.env))

/-- The error leaves the frames up to the code that made the request. -/
def State.unwind (e : Failure S V) : List (Frame P S) → State P S V → State P S V
  | [], s => { s with stack := [] }
  | .body path module namespaceId :: rest, s =>
    { s with stack := .body path module namespaceId :: rest }
  | .eager path _ _ _ :: rest, s =>
    State.unwind e rest (((s.leave path).removeRecord path).emit (.refused path false e))
  | .deferred path _ _ :: rest, s =>
    State.unwind e rest ((s.removeRecord path).emit (.refused path true e))
  | .gather path _ _ _ :: rest, s => State.unwind e rest (s.emit (.refused path true e))
  | .targets path _ :: rest, s => State.unwind e rest (s.emit (.refused path true e))

def State.fail (s : State P S V) (e : Failure S V) : State P S V :=
  match e with
  | .panics => { s with panicked := true }
  | e => s.unwind e s.stack

def State.refuse (s : State P S V) (path : P) (deferred : Bool) (e : Failure S V) : State P S V :=
  match e with
  | .panics => { s with panicked := true }
  | e => (s.emit (.refused path deferred e)).unwind e s.stack

/-! ## §4 Requests -/

/-- The requests of the import loops: each specifier and phase once. -/
def requests [DecidableEq S] (module : Module S) : List (S × Bool) :=
  (module.imports.map fun entry => (entry.specifier, entry.deferred)).eraseDups

/-- `alloc_execution` for a new record. -/
def State.alloc (s : State P S V) (module : Module S) : State P S V × LinkedModule S V :=
  let (heap, env) := allocExecution s.heap s.nextModuleId module.bindingPlan
  ({ s with heap := heap, nextModuleId := s.nextModuleId + 1 },
    { eagerNamespace := none
      deferredNamespace := none
      env := env
      ownerModuleId := s.nextModuleId
      bindingPlan := module.bindingPlan
      exportStars := module.exportStars
      evaluated := false
      tlaPending := false
      cachedError := none })

def State.executionOf (s : State P S V) (path : P) (module : Module S) :
    State P S V × LinkedModule S V :=
  match s.record path with
  | some record => (s, record)
  | none =>
    let (s, record) := s.alloc module
    ({ s with modules := (path, record) :: s.modules }, record)

def State.eagerNamespaceOf (s : State P S V) (record : LinkedModule S V) (module : Module S) :
    State P S V × Nat :=
  match record.eagerNamespace with
  | some namespaceId => (s, namespaceId)
  | none =>
    let (heap, namespaceId) := attachNamespace s.heap record.env module.bindingPlan
    ({ s with heap := heap }, namespaceId)

/-- `load_and_evaluate` behind the early returns, up to its import loop. -/
def State.enterEager [DecidableEq S] (s : State P S V) (path : P) : State P S V :=
  match graph.read path with
  | .error message => s.refuse path false (.notRead message)
  | .ok module =>
    let (s, record) := s.executionOf path module
    let (s, namespaceId) := s.eagerNamespaceOf record module
    let s := s.modifyRecord path fun record => { record with eagerNamespace := some namespaceId }
    { s with
      loading := path :: s.loading
      stack := .eager path module namespaceId (requests module) :: s.stack }

/-- `load_and_evaluate`. -/
def State.loadAndEvaluate [DecidableEq S] (s : State P S V) (path : P) : State P S V :=
  match s.record path with
  | none =>
    if path ∈ s.loading then
      let (heap, placeholder) := allocPlaceholder s.heap
      { s with heap := heap }.succeed path false placeholder
    else s.enterEager graph path
  | some record =>
    match record.cachedError with
    | some e => s.refuse path false e
    | none =>
      match (record.evaluated || record.tlaPending), record.eagerNamespace with
      | true, some namespaceId => s.succeed path false namespaceId
      | _, _ =>
        if path ∈ s.loading then
          match record.anyNamespace false with
          | some namespaceId => s.succeed path false namespaceId
          | none =>
            let (heap, placeholder) := allocPlaceholder s.heap
            { s with heap := heap }.succeed path false placeholder
        else s.enterEager graph path

def State.attachDeferred (s : State P S V) (path : P) (record : LinkedModule S V) :
    State P S V × Nat :=
  let (heap, namespaceId) := attachNamespace s.heap record.env record.bindingPlan
  ({ s with heap := heap }.modifyRecord path fun record =>
    { record with deferredNamespace := some namespaceId }, namespaceId)

/-- `load_deferred`, up to its import loop. -/
def State.loadDeferred [DecidableEq S] (s : State P S V) (path : P) : State P S V :=
  match s.record path with
  | some record =>
    match record.deferredNamespace with
    | some namespaceId => s.succeed path true namespaceId
    | none =>
      let (s, namespaceId) := s.attachDeferred path record
      match linkRecord graph s.modules path s.heap with
      | (heap, none) => { s with heap := heap }.succeed path true namespaceId
      | (heap, some e) =>
        let s := { s with heap := heap }.modifyRecord path fun record =>
          { record with deferredNamespace := none }
        s.refuse path true e
  | none =>
    match graph.read path with
    | .error message => s.refuse path true (.notRead message)
    | .ok module =>
      let (s, record) := s.alloc module
      let (heap, namespaceId) := attachNamespace s.heap record.env module.bindingPlan
      { s with
        heap := heap
        modules := (path, { record with deferredNamespace := some namespaceId }) :: s.modules
        stack := .deferred path module (requests module) :: s.stack }

def State.load [DecidableEq S] (s : State P S V) (deferred : Bool) (path : P) : State P S V :=
  if deferred then s.loadDeferred graph path else s.loadAndEvaluate graph path

/-- `ensure_deferred`, as code that runs calls it. -/
def State.ensureDeferred [DecidableEq S] (s : State P S V) (path : P) : State P S V :=
  match s.record path with
  | none => s
  | some record =>
    match record.cachedError with
    | some e => s.emit (.refused path true e)
    | none =>
      if record.evaluated then s
      else if path ∈ s.loading ∨ record.tlaPending then
        s.emit (.refused path true .alreadyEvaluating)
      else s.load graph false path

/-- The module that a namespace belongs to, from `ensure_evaluated`. -/
def State.moduleOf (s : State P S V) (namespaceId : Nat) : Option P :=
  (s.modules.find? fun e =>
    e.2.deferredNamespace = some namespaceId ∨ e.2.eagerNamespace = some namespaceId).map Prod.fst

/-! ## §5 Labels -/

/-- How a body ends. An async one is suspended when its promise does not settle. -/
inductive Outcome (V : Type) where
  | completes
  | throws (v : V)
  | suspends
  deriving DecidableEq, Repr

inductive Label (P V : Type) where
  /-- The engine requests a module. -/
  | request (deferred : Bool) (path : P)
  /-- Code calls `import()`; the job runs at a checkpoint. -/
  | importCall (path : P)
  | runJob
  /-- The next step of the frame on top. -/
  | advance
  /-- Code reads a deferred namespace. -/
  | observe (namespaceId : Nat)
  | bodyEnds (outcome : Outcome V)
  /-- The promise of a suspended body settles. -/
  | settles (path : P) (thrown : Option V)
  /-- Code of a module writes one of its variables. -/
  | assign (path : P) (slot : Nat) (v : V)

def Event.isSuspended (path : P) : Event P S V → Bool
  | .suspended p => p = path
  | _ => false

def Event.isSettled (path : P) : Event P S V → Bool
  | .settled p _ => p = path
  | _ => false

def State.atCode (s : State P S V) : Bool :=
  match s.stack with
  | [] | .body _ _ _ :: _ => true
  | _ => false

def State.advance [DecidableEq S] (s : State P S V) : State P S V :=
  match s.stack with
  | [] | .body _ _ _ :: _ => s
  | .eager path _ _ ((specifier, deferred) :: _) :: _ =>
    s.load graph deferred (graph.resolve path specifier)
  | .eager path module namespaceId [] :: rest =>
    match linkRecord graph s.modules path s.heap with
    | (heap, some e) => { s with heap := heap }.fail e
    | (heap, none) =>
      (({ s with heap := heap, stack := .body path module namespaceId :: rest }.emit
        (.linked path)).emit (.started path))
  | .deferred path _ ((specifier, _) :: _) :: _ =>
    s.load graph true (graph.resolve path specifier)
  | .deferred path _ [] :: rest =>
    match linkRecord graph s.modules path s.heap with
    | (heap, some e) => { s with heap := heap }.fail e
    | (heap, none) =>
      { s with heap := heap, stack := .gather path [path] [] [] :: rest }.emit (.linked path)
  | .gather path [] _ targets :: rest => { s with stack := .targets path targets :: rest }
  | .gather path (next :: pending) seen targets :: rest =>
    if next ∈ seen then { s with stack := .gather path pending seen targets :: rest }
    else if ((s.record next).any LinkedModule.evaluated) ∨ next ∈ s.loading then
      { s with stack := .gather path pending (next :: seen) targets :: rest }
    else
      match graph.read next with
      | .error message => s.fail (.notRead message)
      | .ok module =>
        if module.isAsync then
          { s with stack := .gather path pending (next :: seen) (targets ++ [next]) :: rest }
        else
          let children := (requests module).map fun r => graph.resolve next r.1
          { s with stack := .gather path (children ++ pending) (next :: seen) targets :: rest }
  | .targets _ (target :: _) :: _ => s.load graph false target
  | .targets path [] :: rest =>
    match (s.record path).bind LinkedModule.deferredNamespace with
    | none => { s with panicked := true }
    | some namespaceId => { s with stack := rest }.succeed path true namespaceId

/-- The body on top ends, with `settle_evaluation_promise` for an async one. -/
def State.bodyEnds (s : State P S V) (outcome : Outcome V) : State P S V :=
  match s.stack with
  | .body path module namespaceId :: rest =>
    let s := { s with stack := rest }
    match outcome with
    | .completes =>
      (((s.modifyRecord path fun record => { record with evaluated := true }).leave path).emit
        (.completed path)).succeed path false namespaceId
    | .throws v =>
      -- `cache_evaluation_error`.
      let s := (s.leave path).modifyRecord path fun record =>
        { record with cachedError := some (.thrown v), tlaPending := false }
      (s.emit (.threw path (.thrown v))).refuse path false (.thrown v)
    | .suspends =>
      if module.isAsync then
        (((s.modifyRecord path fun record => { record with tlaPending := true }).leave path).emit
          (.suspended path)).succeed path false namespaceId
      else { s with stack := .body path module namespaceId :: rest }
  | _ => s

def isOwn (binding : BindingPlan S) : Bool :=
  match binding.source with
  | .localBinding | .defaultExpression => true
  | _ => false

def State.assign (s : State P S V) (path : P) (slot : Nat) (v : V) : State P S V :=
  match s.record path with
  | none => s
  | some record =>
    match record.bindingPlan[slot]?, envCell s.heap record.env slot with
    | some binding, some cell =>
      if isOwn binding then { s with heap := s.heap.setContent cell (some (.data v)) } else s
    | _, _ => s

variable [DecidableEq S]

def step (s : State P S V) (label : Label P V) : State P S V :=
  if s.panicked then s
  else
    match label with
    | .request deferred path =>
      match s.stack with
      | [] => s.load graph deferred path
      | _ => s
    | .importCall path => if s.atCode then { s with jobs := s.jobs ++ [path] } else s
    | .runJob =>
      match s.stack, s.jobs with
      | [], path :: jobs => { s with jobs := jobs }.load graph false path
      | _, _ => s
    | .advance => s.advance graph
    | .observe namespaceId =>
      if s.atCode then
        match s.moduleOf namespaceId with
        | none => s
        | some path => s.ensureDeferred graph path
      else s
    | .bodyEnds outcome => s.bodyEnds outcome
    | .settles path thrown =>
      -- Nothing of the loader looks at it.
      if s.log.countP (Event.isSettled path) < s.log.countP (Event.isSuspended path) then
        s.emit (.settled path (thrown.map .thrown))
      else s
    | .assign path slot v => s.assign path slot v

end V12.ModuleLoader
