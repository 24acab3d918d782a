/-
V12.Bccompiler.Statement — statements with loops, `try` and exits, and the code
`v12-bccompiler/src/stmt.rs` emits for them.

Code is kept in the nesting in which it is emitted: a jump names an enclosing
loop context by its distance, a handler range is the node around the code it
covers. The emitter's finalizer stack is threaded as the source threads it:
what an exit pops stays popped.
-/
import Mathlib.Tactic.Common

namespace V12.Bccompiler

/-! ## §1 Source and target -/

/-- A statement; straight-line code is an operation by its number, and may throw. -/
inductive Stmt where
  | empty
  | op (id : Nat)
  /-- A class whose evaluation has an environment of its own. -/
  | classScope (id : Nat)
  | seq (s t : Stmt)
  | ifElse (test : Nat) (s t : Stmt)
  | whileLoop (name : Option Nat) (test : Nat) (body : Stmt)
  | doWhile (name : Option Nat) (body : Stmt) (test : Nat)
  /-- `perIter`: a binding of the head is captured. -/
  | forLoop (name : Option Nat) (perIter : Bool) (test : Option Nat) (update : Nat) (body : Stmt)
  /-- `for-in`, and `for-of` when `closes`. -/
  | forEach (name : Option Nat) (perIter closes : Bool) (next : Nat) (body : Stmt)
  | labeled (name : Nat) (body : Stmt)
  /-- The clauses in source order, as a `seq` spine. -/
  | switch (name : Option Nat) (disc : Nat) (clauses : Stmt)
  | breakTo (label : Option Nat)
  | continueTo (label : Option Nat)
  | ret (id : Nat)
  | throwOp (id : Nat)
  | yieldOp (id : Nat)
  | tryCatch (body handler : Stmt)
  | tryFinally (body fin : Stmt)
  | tryCatchFinally (body handler fin : Stmt)

/-- The environments on a chain: a unit's own, one that a class scope pushed, and the one of an
iteration, which `emit_per_iteration_env` makes as a new instance of the unit's own. -/
inductive EnvKind where
  | own
  | classScope
  | iteration
  deriving DecidableEq, Repr

/-- Emitted code. -/
inductive Emitted where
  | done
  | instr (id : Nat)
  /-- `NewEnvironment`, the code, `PopEnvironment`. -/
  | scope (kind : EnvKind) (c : Emitted)
  | seq (c d : Emitted)
  | ifElse (test : Nat) (c d : Emitted)
  /-- `top`, head, an exit to `end` when `exitFirst`, body, `cont`, tail, and back
  to `top`, with an exit in front of it when `exitLast`. -/
  | loop (head : Option Nat) (exitFirst : Bool) (body : Emitted) (tail : Option Nat) (exitLast : Bool)
  /-- The handler range of `for-of`: closes the iterator and throws again. -/
  | closing (c : Emitted)
  /-- A labelled statement: `end` is bound behind it. -/
  | region (c : Emitted)
  | switch (disc : Nat) (c : Emitted)
  /-- Finalizer copies, iterator closes, environment pops, and `Jump` to a label
  of the loop context at distance `pos`. -/
  | exit (copies : Emitted) (closes pops pos : Nat) (toCont : Bool)
  /-- The value, finalizer copies, iterator closes, `Return`. -/
  | ret (id : Nat) (copies : Emitted) (closes : Nat)
  | throwOp (id : Nat)
  /-- `SuspendYield`; a return completion runs the copies and returns. -/
  | suspend (id : Nat) (copies : Emitted)
  /-- A copy of a finalizer whose `try` lies at that environment depth. -/
  | copy (depth : Nat) (c : Emitted)
  /-- A range with a `catch` clause as its target. -/
  | catching (c handler : Emitted)
  /-- A range whose target is the finalizer and a `Throw`, and the finalizer on
  the normal path. -/
  | finalizing (c fin : Emitted)

/-! ## §2 The emitter -/

/-- `LoopCtx`: a loop, or a break-only target. -/
structure LoopCtx where
  name : Option Nat
  continues : Bool
  finallyBase : Nat
  closes : Bool
  perIter : Bool

/-- `FinallyCtx`: the finalizer, compiled anew wherever it is copied, under the
loop contexts and the environment depth there; `depth` is its `try`'s own. -/
structure FinallyCtx where
  depth : Nat
  body : List LoopCtx → Nat → Option Emitted

/-- The match of `jump_out`. -/
def LoopCtx.matches (label : Option Nat) (isContinue : Bool) (ctx : LoopCtx) : Bool :=
  match label, ctx.name with
  | some want, some name => want == name
  | none, name => if isContinue then ctx.continues && name.isNone else name.isNone
  | some _, none => false

/-- `run_finally_copies`: pops down to `until`, and leaves the rest. -/
def runFinallyCopies (loops : List LoopCtx) (depth : Nat) :
    List FinallyCtx → Nat → Option (Emitted × List FinallyCtx)
  | [], _ => some (.done, [])
  | ctx :: finallies, untilLen =>
    if untilLen < (ctx :: finallies).length then do
      let c ← ctx.body loops depth
      let (cs, rest) ← runFinallyCopies loops depth finallies untilLen
      return (.seq (.copy ctx.depth c) cs, rest)
    else some (.done, ctx :: finallies)

/-- `emit_yield_return_finally_copies`: all of them, nothing is popped. -/
def yieldReturnCopies (loops : List LoopCtx) (depth : Nat) (finallies : List FinallyCtx) :
    Option Emitted := (runFinallyCopies loops depth finallies 0).map Prod.fst

def closesOf (loops : List LoopCtx) : Nat := loops.countP LoopCtx.closes

def popsOf (loops : List LoopCtx) : Nat := loops.countP LoopCtx.perIter

/-- `jump_out`. -/
def jumpOut (label : Option Nat) (isContinue : Bool) (loops : List LoopCtx)
    (finallies : List FinallyCtx) (depth : Nat) : Option (Emitted × List FinallyCtx) := do
  let pos ← loops.findIdx? (LoopCtx.matches label isContinue)
  let ctx ← loops[pos]?
  if isContinue && !ctx.continues then none
  else
    let (copies, rest) ← runFinallyCopies loops depth finallies ctx.finallyBase
    let closes := closesOf (loops.take (if isContinue then pos else pos + 1))
    return (.exit copies closes (popsOf (loops.take (pos + 1))) pos isContinue, rest)

def iteration (perIter : Bool) (body : Emitted) : Emitted := if perIter then .scope .iteration body else body

def bodyDepth (perIter : Bool) (depth : Nat) : Nat := if perIter then depth + 1 else depth

/-- `stmt`: the code, and the finalizer stack it leaves. -/
def emit : Stmt → List LoopCtx → List FinallyCtx → Nat → Option (Emitted × List FinallyCtx)
  | .empty, _, finallies, _ => some (.done, finallies)
  | .op id, _, finallies, _ => some (.instr id, finallies)
  | .classScope id, _, finallies, _ => some (.scope .classScope (.instr id), finallies)
  | .seq s t, loops, finallies, depth => do
    let (c, finallies) ← emit s loops finallies depth
    let (d, finallies) ← emit t loops finallies depth
    return (.seq c d, finallies)
  | .ifElse test s t, loops, finallies, depth => do
    let (c, finallies) ← emit s loops finallies depth
    let (d, finallies) ← emit t loops finallies depth
    return (.ifElse test c d, finallies)
  | .whileLoop name test body, loops, finallies, depth => do
    let (c, finallies) ←
      emit body (⟨name, true, finallies.length, false, false⟩ :: loops) finallies depth
    return (.loop (some test) true c none false, finallies)
  | .doWhile name body test, loops, finallies, depth => do
    let (c, finallies) ←
      emit body (⟨name, true, finallies.length, false, false⟩ :: loops) finallies depth
    return (.loop none false c (some test) true, finallies)
  | .forLoop name perIter test update body, loops, finallies, depth => do
    let (c, finallies) ← emit body (⟨name, true, finallies.length, false, perIter⟩ :: loops)
      finallies (bodyDepth perIter depth)
    return (.loop test test.isSome (iteration perIter c) (some update) false, finallies)
  | .forEach name perIter closes next body, loops, finallies, depth => do
    let (c, finallies) ← emit body (⟨name, true, finallies.length, closes, perIter⟩ :: loops)
      finallies (bodyDepth perIter depth)
    let loop := Emitted.loop (some next) true (iteration perIter c) none false
    return (if closes then .closing loop else loop, finallies)
  | .labeled name body, loops, finallies, depth => do
    let (c, finallies) ←
      emit body (⟨some name, false, finallies.length, false, false⟩ :: loops) finallies depth
    return (.region c, finallies)
  | .switch name disc clauses, loops, finallies, depth => do
    let (c, finallies) ←
      emit clauses (⟨name, false, finallies.length, false, false⟩ :: loops) finallies depth
    return (.switch disc c, finallies)
  | .breakTo label, loops, finallies, depth => jumpOut label false loops finallies depth
  | .continueTo label, loops, finallies, depth => jumpOut label true loops finallies depth
  | .ret id, loops, finallies, depth => do
    let (copies, finallies) ← runFinallyCopies loops depth finallies 0
    return (.ret id copies (closesOf loops), finallies)
  | .throwOp id, _, finallies, _ => some (.throwOp id, finallies)
  | .yieldOp id, loops, finallies, depth => do
    let copies ← yieldReturnCopies loops depth finallies
    return (.suspend id copies, finallies)
  | .tryCatch body handler, loops, finallies, depth => do
    let (c, finallies) ← emit body loops finallies depth
    let (h, finallies) ← emit handler loops finallies depth
    return (.catching c h, finallies)
  | .tryFinally body fin, loops, finallies, depth => do
    -- `copy_finalizer`: compiled with the stack taken away
    let copyFinalizer := fun loops depth => (emit fin loops [] depth).map Prod.fst
    let (c, finallies) ← emit body loops (⟨depth, copyFinalizer⟩ :: finallies) depth
    let f ← copyFinalizer loops depth
    return (.finalizing c f, finallies.tail)
  | .tryCatchFinally body handler fin, loops, finallies, depth => do
    let copyFinalizer := fun loops depth => (emit fin loops [] depth).map Prod.fst
    let (c, finallies) ← emit body loops (⟨depth, copyFinalizer⟩ :: finallies) depth
    let (h, finallies) ← emit handler loops finallies depth
    let f ← copyFinalizer loops depth
    return (.finalizing (.catching c h) f, finallies.tail)

end V12.Bccompiler
