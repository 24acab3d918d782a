/-
V12.Bccompiler.ModulePlan — what the compiler hands the module loader: the entries of
`v12-bccompiler/src/model.rs` and `build_module_binding_plans` of `collect.rs`.

Symbols are numbers. `env_slot` is left out: the function numbers the entries of
the plan in order, so a slot is a position.
-/
import Mathlib.Data.List.Basic

namespace V12.ModulePlan

variable (S : Type)

/-! ## §1 Entries -/

/-- `ImportEntry`: `imported` is `*` for a namespace and empty where nothing is bound. -/
structure ImportEntry where
  specifier : S
  imported : String
  localSymbol : Option Nat
  deferred : Bool
  deriving DecidableEq, Repr

/-- `ExportEntry`: without `imported`, an entry with a specifier is an `export *`, under the
name `*` if it has no other. -/
structure ExportEntry where
  specifier : Option S
  imported : Option String
  localSymbol : Option Nat
  exported : String
  deriving DecidableEq, Repr

/-- `ModuleBindingSource`. -/
inductive BindingSource where
  | localBinding
  | importBinding (specifier : S) (imported : String) (deferred : Bool)
  | reExport (specifier : S) (imported : String)
  | defaultExpression
  deriving DecidableEq, Repr

/-- `ModuleBindingPlan`. -/
structure BindingPlan where
  symbol : Option Nat
  source : BindingSource S
  exports : List String
  initiallyInitialized : Bool
  deriving DecidableEq, Repr

variable {S}

def ExportEntry.isStar (e : ExportEntry S) : Bool :=
  e.specifier.isSome && e.imported.isNone && e.exported == "*"

/-- A compiled module, with what the parser's early errors and the collect pass ensure: no
name is exported twice, imports bind different symbols, only a default export has no local
symbol, and what is exported from elsewhere is also imported. -/
structure Module (S : Type) where
  imports : List (ImportEntry S)
  exports : List (ExportEntry S)
  varSymbols : List Nat
  isAsync : Bool
  exported_nodup : ((exports.filter fun e => !e.isStar).map ExportEntry.exported).Nodup
  locals_nodup : (imports.filterMap ImportEntry.localSymbol).Nodup
  default_only : ∀ e ∈ exports, e.specifier = none → e.localSymbol = none → e.exported = "default"
  requested : ∀ e ∈ exports, ∀ specifier, e.specifier = some specifier →
    ∃ i ∈ imports, i.specifier = specifier ∧ i.deferred = false

/-! ## §2 The binding plan -/

def planImport (import_ : ImportEntry S) : Option (BindingPlan S) :=
  import_.localSymbol.map fun symbol => {
    symbol := some symbol
    source := .importBinding import_.specifier import_.imported import_.deferred
    exports := []
    initiallyInitialized := true }

def BindingPlan.addExport (plan : BindingPlan S) (exported : String) : BindingPlan S :=
  if exported ∈ plan.exports then plan else { plan with exports := plan.exports ++ [exported] }

def isDefault (plan : BindingPlan S) : Bool :=
  match plan.source with
  | .defaultExpression => true
  | _ => false

def planExport (varSymbols : List Nat) (plans : List (BindingPlan S)) (e : ExportEntry S) :
    List (BindingPlan S) :=
  match e.specifier with
  | some specifier =>
    match e.imported with
    | some imported =>
      plans ++ [{
        symbol := none
        source := .reExport specifier imported
        exports := [e.exported]
        initiallyInitialized := true }]
    | none => plans
  | none =>
    match e.localSymbol with
    | some symbol =>
      match plans.findIdx? fun plan => plan.symbol == some symbol with
      | some slot => plans.modify slot fun plan => plan.addExport e.exported
      | none =>
        plans ++ [{
          symbol := some symbol
          source := .localBinding
          exports := [e.exported]
          initiallyInitialized := varSymbols.contains symbol }]
    | none =>
      if e.exported = "default" ∧ ¬ plans.any isDefault then
        plans ++ [{
          symbol := none
          source := .defaultExpression
          exports := ["default"]
          initiallyInitialized := false }]
      else plans

/-- `build_module_binding_plans`. -/
def buildModuleBindingPlans (imports : List (ImportEntry S)) (exports : List (ExportEntry S))
    (varSymbols : List Nat) : List (BindingPlan S) :=
  exports.foldl (planExport varSymbols) (imports.filterMap planImport)

def Module.bindingPlan (m : Module S) : List (BindingPlan S) :=
  buildModuleBindingPlans m.imports m.exports m.varSymbols

/-- `export_stars` of `compile_ast_as_module_inner`. -/
def Module.exportStars (m : Module S) : List S :=
  m.exports.filterMap fun e => if e.isStar then e.specifier else none

end V12.ModulePlan
