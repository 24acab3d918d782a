/-
V12.Engine.ModuleNamespace — environments, binding cells and namespace objects of modules,
from `v12-engine/src/module_namespace.rs`.

Handles are positions. A namespace is its exports in slot order, an environment its
cells. A cell that is not initialized has no content.
-/
import Mathlib.Data.List.Sort
import Mathlib.Data.List.Destutter
import V12.Bccompiler.ModulePlan

namespace V12.ModuleNamespace

open V12.ModulePlan

/-! ## §1 The heap -/

variable (V : Type)

inductive Value where
  | undefined
  | namespaceObject (id : Nat)
  | data (v : V)
  deriving DecidableEq, Repr

/-- `binding_cell`. The slot it was made for is a record; the code has none. -/
structure Cell where
  ownerModuleId : Nat
  slot : Nat
  content : Option (Value V)
  deriving DecidableEq, Repr

structure Heap where
  cells : List (Cell V)
  envs : List (List Nat)
  namespaces : List (List (String × Nat))
  deriving DecidableEq, Repr

variable {V} {S : Type}

/-! ## §2 Allocation -/

/-- `alloc_execution`: a cell for each entry of the plan. -/
def allocExecution (heap : Heap V) (ownerModuleId : Nat) (plan : List (BindingPlan S)) :
    Heap V × Nat :=
  let cells := plan.mapIdx fun slot binding =>
    ⟨ownerModuleId, slot, if binding.initiallyInitialized then some .undefined else none⟩
  ({ heap with
      cells := heap.cells ++ cells
      envs := heap.envs ++ [List.range' heap.cells.length plan.length] },
    heap.envs.length)

/-- `sort_by` and `dedup_by` on the names. -/
def sortNames (exports : List (String × Nat)) : List (String × Nat) :=
  (exports.insertionSort fun a b => a.1 ≤ b.1).destutter fun a b => a.1 ≠ b.1

def planExports (env : List Nat) (plan : List (BindingPlan S)) : List (String × Nat) :=
  (env.zip plan).flatMap fun (cell, binding) => binding.exports.map fun name => (name, cell)

/-- `attach_namespace`. -/
def attachNamespace (heap : Heap V) (env : Nat) (plan : List (BindingPlan S)) : Heap V × Nat :=
  let exports := sortNames (planExports (heap.envs.getD env []) plan)
  ({ heap with namespaces := heap.namespaces ++ [exports] }, heap.namespaces.length)

def allocPlaceholder (heap : Heap V) : Heap V × Nat :=
  ({ heap with namespaces := heap.namespaces ++ [[]] }, heap.namespaces.length)

/-! ## §3 Linking -/

def exportsOf (heap : Heap V) (id : Nat) : List (String × Nat) := heap.namespaces.getD id []

/-- `export_names`. -/
def exportNames (heap : Heap V) (id : Nat) : List String := (exportsOf heap id).map Prod.fst

/-- `export_cell`. -/
def exportCell (heap : Heap V) (id : Nat) (name : String) : Option Nat :=
  (exportsOf heap id).lookup name

def Heap.modifyNamespace (heap : Heap V) (id : Nat)
    (f : List (String × Nat) → List (String × Nat)) : Heap V :=
  { heap with namespaces := heap.namespaces.modify id f }

def replaceExport (name : String) (cell : Nat) (exports : List (String × Nat)) :
    List (String × Nat) :=
  exports.map fun e => if e.1 = name then (e.1, cell) else e

/-- `set_export_cell`. -/
def setExportCell (heap : Heap V) (id : Nat) (name : String) (cell : Nat) : Heap V :=
  heap.modifyNamespace id (replaceExport name cell)

/-- `set_or_add_export_cell`. -/
def setOrAddExportCell (heap : Heap V) (id : Nat) (name : String) (cell : Nat) : Heap V :=
  heap.modifyNamespace id fun exports =>
    if name ∈ exports.map Prod.fst then replaceExport name cell exports
    else exports ++ [(name, cell)]

/-- `sort_exports`. -/
def sortExports (heap : Heap V) (id : Nat) : Heap V := heap.modifyNamespace id sortNames

/-- `set_env_cell`. -/
def setEnvCell (heap : Heap V) (env slot cell : Nat) : Heap V :=
  { heap with envs := heap.envs.modify env fun cells => cells.set slot cell }

def envCell (heap : Heap V) (env slot : Nat) : Option Nat := (heap.envs.getD env [])[slot]?

def Heap.setContent (heap : Heap V) (cell : Nat) (content : Option (Value V)) : Heap V :=
  { heap with cells := heap.cells.modify cell fun c => { c with content := content } }

/-- `set_env_value`. -/
def setEnvValue (heap : Heap V) (env slot : Nat) (value : Value V) : Heap V :=
  match envCell heap env slot with
  | none => heap
  | some cell => heap.setContent cell (some value)

end V12.ModuleNamespace
