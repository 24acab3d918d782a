/-
V12.Bccompiler.Exec — runs of emitted code, with the environments of the frame.

A run may be cut at any point, so the finite runs include every prefix of an
infinite one. Exceptions go to the innermost range around the instruction
(`unwind`), and the unwinder leaves the frame's environment alone.
-/
import V12.Bccompiler.Statement

namespace V12.Bccompiler

/-- An environment, by its handle. -/
structure Env where
  kind : EnvKind
  handle : Nat
  deriving DecidableEq, Repr

/-- What a run does, as far as it can be seen. -/
inductive What where
  | op (id : Nat)
  | close
  /-- An exception is delivered to a handler, raised `crossed` environments
  inside the range. -/
  | deliver (crossed : Nat)
  /-- A finalizer copy begins, `crossed` environments inside its `try`. -/
  | copy (crossed : Nat)
  deriving DecidableEq, Repr

/-- An event, with the environments that the code there has entered and not left, innermost first
and on top of those of the closure, and the chain that the frame has. -/
structure Event where
  what : What
  entered : List Env
  actual : List Env
  deriving DecidableEq, Repr

/-- How code is left; `crossed` counts the environments of the code around the
point where the exception was raised. -/
inductive Outcome where
  | normal
  | jumped (pos : Nat) (toCont : Bool)
  | returned (v : Nat)
  | threw (v crossed : Nat)
  | cut
  deriving DecidableEq, Repr

def Outcome.leaveScope : Outcome → Outcome
  | .threw v crossed => .threw v (crossed + 1)
  | o => o

def Outcome.leaveRegion : Outcome → Outcome
  | .jumped 0 _ => .normal
  | .jumped (pos + 1) toCont => .jumped pos toCont
  | o => o

/-- The body of a loop goes on at `cont`. -/
def Outcome.goesOn : Outcome → Bool
  | .normal | .jumped 0 true => true
  | _ => false

/-- Where the clauses of a `switch` can be entered. -/
def Emitted.entries : Emitted → List Emitted
  | .seq c d => .seq c d :: d.entries
  | c => [c]

def opEvents (id : Option Nat) (entered actual : List Env) : List Event :=
  id.toList.map fun id => ⟨.op id, entered, actual⟩

/-- `closes` calls of `IteratorClose`, one after the other. -/
inductive Closes (entered actual : List Env) : Nat → List Event → Outcome → Prop where
  | done : Closes entered actual 0 [] .normal
  | cut {n} : Closes entered actual n [] .cut
  | threw {n v} : Closes entered actual (n + 1) [⟨.close, entered, actual⟩] (.threw v 0)
  | next {n evs o} : Closes entered actual n evs o →
      Closes entered actual (n + 1) (⟨.close, entered, actual⟩ :: evs) o

/-- Runs of emitted code. -/
inductive Exec : Emitted → List Env → List Env → List Event → Outcome → List Env → Prop where
  | cut {c A σ} : Exec c A σ [] .cut σ
  | done {A σ} : Exec .done A σ [] .normal σ
  | instr {id A σ} : Exec (.instr id) A σ [⟨.op id, A, σ⟩] .normal σ
  | instrThrow {id A σ v} : Exec (.instr id) A σ [⟨.op id, A, σ⟩] (.threw v 0) σ
  | scope {kind c A σ h evs σ'} : Exec c (⟨kind, h⟩ :: A) (⟨kind, h⟩ :: σ) evs .normal σ' →
      Exec (.scope kind c) A σ evs .normal σ'.tail
  | scopeOut {kind c A σ h evs o σ'} : Exec c (⟨kind, h⟩ :: A) (⟨kind, h⟩ :: σ) evs o σ' →
      o ≠ .normal → Exec (.scope kind c) A σ evs o.leaveScope σ'
  | seq {c d A σ evs σ₁ evs' o σ'} : Exec c A σ evs .normal σ₁ → Exec d A σ₁ evs' o σ' →
      Exec (.seq c d) A σ (evs ++ evs') o σ'
  | seqOut {c d A σ evs o σ'} : Exec c A σ evs o σ' → o ≠ .normal → Exec (.seq c d) A σ evs o σ'
  | ifThrow {test c d A σ v} : Exec (.ifElse test c d) A σ [⟨.op test, A, σ⟩] (.threw v 0) σ
  | ifTrue {test c d A σ evs o σ'} : Exec c A σ evs o σ' →
      Exec (.ifElse test c d) A σ (⟨.op test, A, σ⟩ :: evs) o σ'
  | ifFalse {test c d A σ evs o σ'} : Exec d A σ evs o σ' →
      Exec (.ifElse test c d) A σ (⟨.op test, A, σ⟩ :: evs) o σ'
  | loopHeadThrow {id exitFirst c tail exitLast A σ v} :
      Exec (.loop (some id) exitFirst c tail exitLast) A σ [⟨.op id, A, σ⟩] (.threw v 0) σ
  | loopExit {head c tail exitLast A σ} :
      Exec (.loop head true c tail exitLast) A σ (opEvents head A σ) .normal σ
  | loopOut {head exitFirst c tail exitLast A σ evs o σ'} : Exec c A σ evs o σ' →
      o.goesOn = false →
      Exec (.loop head exitFirst c tail exitLast) A σ (opEvents head A σ ++ evs) o.leaveRegion σ'
  | loopCut {head exitFirst c tail exitLast A σ evs o σ'} : Exec c A σ evs o σ' →
      o.goesOn = true →
      Exec (.loop head exitFirst c tail exitLast) A σ (opEvents head A σ ++ evs) .cut σ'
  | loopTailThrow {head exitFirst c id exitLast A σ evs o σ' v} : Exec c A σ evs o σ' →
      o.goesOn = true →
      Exec (.loop head exitFirst c (some id) exitLast) A σ
        (opEvents head A σ ++ evs ++ [⟨.op id, A, σ'⟩]) (.threw v 0) σ'
  | loopLast {head exitFirst c tail A σ evs o σ'} : Exec c A σ evs o σ' → o.goesOn = true →
      Exec (.loop head exitFirst c tail true) A σ
        (opEvents head A σ ++ evs ++ opEvents tail A σ') .normal σ'
  | loopAgain {head exitFirst c tail exitLast A σ evs o σ₁ evs' o' σ'} : Exec c A σ evs o σ₁ →
      o.goesOn = true → Exec (.loop head exitFirst c tail exitLast) A σ₁ evs' o' σ' →
      Exec (.loop head exitFirst c tail exitLast) A σ
        (opEvents head A σ ++ evs ++ opEvents tail A σ₁ ++ evs') o' σ'
  | closing {c A σ evs o σ'} : Exec c A σ evs o σ' → (∀ v n, o ≠ .threw v n) →
      Exec (.closing c) A σ evs o σ'
  | closingCut {c A σ evs v n σ'} : Exec c A σ evs (.threw v n) σ' →
      Exec (.closing c) A σ (evs ++ [⟨.deliver n, A, σ'⟩]) .cut σ'
  /-- With `close_guard` set, or past the best-effort close. -/
  | closingThrow {c A σ evs v n σ'} {guard : Bool} : Exec c A σ evs (.threw v n) σ' →
      Exec (.closing c) A σ
        (evs ++ ⟨.deliver n, A, σ'⟩ :: if guard then [] else [⟨.close, A, σ'⟩]) (.threw v 0) σ'
  | region {c A σ evs o σ'} : Exec c A σ evs o σ' → Exec (.region c) A σ evs o.leaveRegion σ'
  | switchThrow {disc c A σ v} : Exec (.switch disc c) A σ [⟨.op disc, A, σ⟩] (.threw v 0) σ
  /-- No clause matches and there is no `default`. -/
  | switchNone {disc c A σ} : Exec (.switch disc c) A σ [⟨.op disc, A, σ⟩] .normal σ
  | switchIn {disc c d A σ evs o σ'} : d ∈ c.entries → Exec d A σ evs o σ' →
      Exec (.switch disc c) A σ (⟨.op disc, A, σ⟩ :: evs) o.leaveRegion σ'
  | exit {copies closes pops pos toCont A σ evs σ₁ evs'} : Exec copies A σ evs .normal σ₁ →
      Closes A σ₁ closes evs' .normal →
      Exec (.exit copies closes pops pos toCont) A σ (evs ++ evs') (.jumped pos toCont)
        (σ₁.drop pops)
  | exitCopies {copies closes pops pos toCont A σ evs o σ'} : Exec copies A σ evs o σ' →
      o ≠ .normal → Exec (.exit copies closes pops pos toCont) A σ evs o σ'
  | exitClose {copies closes pops pos toCont A σ evs σ₁ evs' o} : Exec copies A σ evs .normal σ₁ →
      Closes A σ₁ closes evs' o → o ≠ .normal →
      Exec (.exit copies closes pops pos toCont) A σ (evs ++ evs') o σ₁
  | retThrow {id copies closes A σ v} :
      Exec (.ret id copies closes) A σ [⟨.op id, A, σ⟩] (.threw v 0) σ
  | ret {id copies closes A σ evs σ' evs' v} : Exec copies A σ evs .normal σ' →
      Closes A σ' closes evs' .normal →
      Exec (.ret id copies closes) A σ (⟨.op id, A, σ⟩ :: evs ++ evs') (.returned v) σ'
  | retCopies {id copies closes A σ evs o σ'} : Exec copies A σ evs o σ' → o ≠ .normal →
      Exec (.ret id copies closes) A σ (⟨.op id, A, σ⟩ :: evs) o σ'
  | retClose {id copies closes A σ evs σ' evs' o} : Exec copies A σ evs .normal σ' →
      Closes A σ' closes evs' o → o ≠ .normal →
      Exec (.ret id copies closes) A σ (⟨.op id, A, σ⟩ :: evs ++ evs') o σ'
  | throwOp {id A σ v} : Exec (.throwOp id) A σ [⟨.op id, A, σ⟩] (.threw v 0) σ
  | suspend {id copies A σ} : Exec (.suspend id copies) A σ [⟨.op id, A, σ⟩] .normal σ
  | suspendThrow {id copies A σ v} : Exec (.suspend id copies) A σ [⟨.op id, A, σ⟩] (.threw v 0) σ
  /-- Resumed by `return(v)`. -/
  | suspendReturn {id copies A σ evs σ' v} : Exec copies A σ evs .normal σ' →
      Exec (.suspend id copies) A σ (⟨.op id, A, σ⟩ :: evs) (.returned v) σ'
  | suspendCopies {id copies A σ evs o σ'} : Exec copies A σ evs o σ' → o ≠ .normal →
      Exec (.suspend id copies) A σ (⟨.op id, A, σ⟩ :: evs) o σ'
  | copy {depth c A σ evs o σ'} : Exec c (A.drop (A.length - depth)) σ evs o σ' →
      Exec (.copy depth c) A σ (⟨.copy (A.length - depth), A.drop (A.length - depth), σ⟩ :: evs) o σ'
  | catching {c handler A σ evs o σ'} : Exec c A σ evs o σ' → (∀ v n, o ≠ .threw v n) →
      Exec (.catching c handler) A σ evs o σ'
  | caught {c handler A σ evs v n σ₁ evs' o σ'} : Exec c A σ evs (.threw v n) σ₁ →
      Exec handler A σ₁ evs' o σ' →
      Exec (.catching c handler) A σ (evs ++ ⟨.deliver n, A, σ₁⟩ :: evs') o σ'
  /-- An exit: its own copies have run. -/
  | finalizingOut {c fin A σ evs o σ'} : Exec c A σ evs o σ' → o ≠ .normal →
      (∀ v n, o ≠ .threw v n) → Exec (.finalizing c fin) A σ evs o σ'
  | finalized {c fin A σ evs σ₁ evs' o σ'} : Exec c A σ evs .normal σ₁ →
      Exec fin A σ₁ evs' o σ' → Exec (.finalizing c fin) A σ (evs ++ evs') o σ'
  | rethrown {c fin A σ evs v n σ₁ evs' σ'} : Exec c A σ evs (.threw v n) σ₁ →
      Exec fin A σ₁ evs' .normal σ' →
      Exec (.finalizing c fin) A σ (evs ++ ⟨.deliver n, A, σ₁⟩ :: evs') (.threw v 0) σ'
  | overridden {c fin A σ evs v n σ₁ evs' o σ'} : Exec c A σ evs (.threw v n) σ₁ →
      Exec fin A σ₁ evs' o σ' → o ≠ .normal →
      Exec (.finalizing c fin) A σ (evs ++ ⟨.deliver n, A, σ₁⟩ :: evs') o σ'

end V12.Bccompiler
