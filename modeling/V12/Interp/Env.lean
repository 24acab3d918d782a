/-
V12.Interp.Env — environments, the display of a frame and the four
instructions on them (`v12-interp/src/execute.rs`, `lib.rs`).

An environment object has slots and a parent; a frame holds its innermost
environment and a display of the first eight of the chain. Handles are
positions, and nothing here frees one. Slots hold plain values: the binding
cells of module exports, which a slot read looks through, are left out.
-/
import Mathlib.Tactic.Common

namespace V12.Interp

variable {V : Type}

/-! ## §1 The chain -/

/-- `JsObject::environment`. -/
structure EnvObject (V : Type) where
  slots : List V
  parent : Option Nat

def parentOf (envs : List (EnvObject V)) (e : Nat) : Option Nat := envs[e]?.bind EnvObject.parent

def slotAt (envs : List (EnvObject V)) (e slot : Nat) : Option V := envs[e]?.bind fun o => o.slots[slot]?

def setSlot (envs : List (EnvObject V)) (e slot : Nat) (v : V) : List (EnvObject V) :=
  envs.modify e fun o => { o with slots := o.slots.set slot v }

/-- `walk_env`: `depth` parent links. -/
def walkEnv (envs : List (EnvObject V)) : Option Nat → Nat → Option Nat
  | none, _ => none
  | some e, 0 => some e
  | some e, depth + 1 => walkEnv envs (parentOf envs e) depth

/-- `ENV_DISPLAY_CAP`. -/
def envDisplayCap : Nat := 8

/-- `env_display_for`: the head and its ancestors, as many as fit. -/
def envDisplayFrom (envs : List (EnvObject V)) : Nat → Option Nat → List (Option Nat)
  | 0, _ => []
  | n + 1, none => none :: envDisplayFrom envs n none
  | n + 1, some e => some e :: envDisplayFrom envs n (parentOf envs e)

def envDisplayFor (envs : List (EnvObject V)) (env : Option Nat) : List (Option Nat) :=
  envDisplayFrom envs envDisplayCap env

/-- `env_display_push`: every entry moves one deeper, the last falls off. -/
def envDisplayPush (display : List (Option Nat)) (head : Nat) : List (Option Nat) :=
  (some head :: display).take display.length

/-! ## §2 A frame and its instructions -/

/-- The environments, and the parts of the running frame that the instructions
use. -/
structure EnvFrame (V : Type) where
  envs : List (EnvObject V)
  env : Option Nat
  display : List (Option Nat)
  regs : Nat → V

/-- `env_at`: the display where it reaches, the chain past it. -/
def EnvFrame.envAt (f : EnvFrame V) (depth : Nat) : Option Nat :=
  if depth < envDisplayCap then f.display[depth]?.join else walkEnv f.envs f.env depth

/-- `env_read`. -/
def EnvFrame.envRead (f : EnvFrame V) (depth slot : Nat) : Option V :=
  (f.envAt depth).bind fun e => slotAt f.envs e slot

/-- `env_write`. -/
def EnvFrame.envWrite (f : EnvFrame V) (depth slot : Nat) (v : V) : Option (EnvFrame V) :=
  (f.envAt depth).bind fun e =>
    (slotAt f.envs e slot).map fun _ => { f with envs := setSlot f.envs e slot v }

inductive EnvInstr where
  | newEnvironment (slots : Nat)
  | popEnvironment
  | getEnvSlot (dst depth slot : Nat)
  | setEnvSlot (depth slot src : Nat)
  deriving DecidableEq, Repr

/-- The arms of the dispatch loop; fresh slots read as `undefined`. -/
def EnvFrame.exec (undefined : V) (f : EnvFrame V) : EnvInstr → Option (EnvFrame V)
  | .newEnvironment slots =>
    some { f with
      envs := f.envs ++ [⟨List.replicate slots undefined, f.env⟩]
      env := some f.envs.length
      display := envDisplayPush f.display f.envs.length }
  | .popEnvironment =>
    let parent := f.env.bind (parentOf f.envs)
    some { f with env := parent, display := envDisplayFor f.envs parent }
  | .getEnvSlot dst depth slot =>
    (f.envRead depth slot).map fun v => { f with regs := Function.update f.regs dst v }
  | .setEnvSlot depth slot src => f.envWrite depth slot (f.regs src)

/-! ## §3 Slots and parents after a change -/

theorem getElem?_setSlot (envs : List (EnvObject V)) (e slot : Nat) (v : V) (i : Nat) :
    (setSlot envs e slot v)[i]? =
      if e = i then envs[i]?.map fun o => { o with slots := o.slots.set slot v } else envs[i]? := by
  rw [setSlot, List.getElem?_modify]
  split
  · rfl
  · simp

@[simp] theorem length_setSlot (envs : List (EnvObject V)) (e slot : Nat) (v : V) :
    (setSlot envs e slot v).length = envs.length := by
  simp [setSlot]

@[simp] theorem parentOf_setSlot (envs : List (EnvObject V)) (e slot : Nat) (v : V) (i : Nat) :
    parentOf (setSlot envs e slot v) i = parentOf envs i := by
  rw [parentOf, getElem?_setSlot, parentOf]
  split
  · cases envs[i]? <;> rfl
  · rfl

@[simp] theorem envDisplayFrom_setSlot (envs : List (EnvObject V)) (e slot : Nat) (v : V) (n : Nat)
    (env : Option Nat) : envDisplayFrom (setSlot envs e slot v) n env = envDisplayFrom envs n env := by
  induction n generalizing env with
  | zero => rfl
  | succ n ih =>
    cases env with
    | none => simp only [envDisplayFrom, ih]
    | some head => simp only [envDisplayFrom, parentOf_setSlot, ih]

variable {envs : List (EnvObject V)} {e : Nat} {env : Option Nat} {f : EnvFrame V}

theorem parentOf_append (more : List (EnvObject V)) (h : e < envs.length) :
    parentOf (envs ++ more) e = parentOf envs e := by
  rw [parentOf, List.getElem?_append_left h, parentOf]

@[simp] theorem walkEnv_zero (envs : List (EnvObject V)) (env : Option Nat) :
    walkEnv envs env 0 = env := by
  cases env <;> rfl

theorem walkEnv_succ (envs : List (EnvObject V)) (env : Option Nat) (depth : Nat) :
    walkEnv envs env (depth + 1) = walkEnv envs (env.bind (parentOf envs)) depth := by
  cases env with
  | none => cases depth <;> rfl
  | some e => rfl

theorem walkEnv_succ' (envs : List (EnvObject V)) (env : Option Nat) (depth : Nat) :
    walkEnv envs env (depth + 1) = (walkEnv envs env depth).bind (parentOf envs) := by
  induction depth generalizing env with
  | zero => rw [walkEnv_succ, walkEnv_zero, walkEnv_zero]
  | succ depth ih => rw [walkEnv_succ, ih, walkEnv_succ]

def Closed (envs : List (EnvObject V)) : Prop :=
  ∀ e p, parentOf envs e = some p → p < envs.length

theorem lt_of_parentOf {p : Nat} (h : parentOf envs e = some p) :
    e < envs.length := by
  obtain ⟨o, ho, -⟩ := Option.bind_eq_some_iff.mp h
  exact (List.getElem?_eq_some_iff.mp ho).1

theorem walkEnv_append_of_closed (more : List (EnvObject V)) (hclosed : Closed envs) (depth : Nat)
    (henv : ∀ e, env = some e → e < envs.length) :
    walkEnv (envs ++ more) env depth = walkEnv envs env depth := by
  induction depth generalizing env with
  | zero => rw [walkEnv_zero, walkEnv_zero]
  | succ depth ih =>
    cases env with
    | none => rfl
    | some e =>
      rw [walkEnv, walkEnv, parentOf_append more (henv e rfl), ih]
      exact hclosed e

/-! ## §4 The display mirrors the chain -/

/-- The display shows the chain. -/
def EnvFrame.Mirrors (f : EnvFrame V) : Prop := f.display = envDisplayFor f.envs f.env

@[simp] theorem length_envDisplayFrom (envs : List (EnvObject V)) (n : Nat) (env : Option Nat) :
    (envDisplayFrom envs n env).length = n := by
  induction n generalizing env with
  | zero => rfl
  | succ n ih => cases env <;> simp [envDisplayFrom, ih]

theorem getElem?_envDisplayFrom (envs : List (EnvObject V)) {n depth : Nat} (h : depth < n)
    (env : Option Nat) : (envDisplayFrom envs n env)[depth]? = some (walkEnv envs env depth) := by
  induction n generalizing env depth with
  | zero => omega
  | succ n ih =>
    cases env with
    | none =>
      cases depth with
      | zero => rfl
      | succ depth =>
        rw [envDisplayFrom, List.getElem?_cons_succ, ih (by omega)]
        cases depth <;> rfl
    | some e =>
      cases depth with
      | zero => rfl
      | succ depth => rw [envDisplayFrom, List.getElem?_cons_succ, ih (by omega)]; rfl

/-- **Both arms of `env_at` agree.** -/
theorem EnvFrame.envAt_eq (h : f.Mirrors) (depth : Nat) :
    f.envAt depth = walkEnv f.envs f.env depth := by
  unfold EnvFrame.envAt
  split
  case isTrue hlt =>
    rw [show f.display = _ from h, envDisplayFor, getElem?_envDisplayFrom f.envs hlt]
    rfl
  case isFalse => rfl

theorem take_envDisplayFrom (envs : List (EnvObject V)) (n : Nat) (env : Option Nat) :
    (envDisplayFrom envs (n + 1) env).take n = envDisplayFrom envs n env := by
  induction n generalizing env with
  | zero => rfl
  | succ n ih =>
    cases env with
    | none => rw [envDisplayFrom, List.take_succ_cons, ih]; rfl
    | some e => rw [envDisplayFrom, List.take_succ_cons, ih]; rfl

theorem envDisplayFrom_congr {envs' : List (EnvObject V)} {env' : Option Nat} {n : Nat}
    (h : ∀ depth, depth < n → walkEnv envs' env' depth = walkEnv envs env depth) :
    envDisplayFrom envs' n env' = envDisplayFrom envs n env := by
  apply List.ext_getElem?
  intro depth
  by_cases hlt : depth < n
  · rw [getElem?_envDisplayFrom envs' hlt, getElem?_envDisplayFrom envs hlt, h depth hlt]
  · rw [List.getElem?_eq_none (by simp; omega), List.getElem?_eq_none (by simp; omega)]

theorem envDisplayFrom_append_of_closed (more : List (EnvObject V)) (hclosed : Closed envs)
    (n : Nat) (henv : ∀ e, env = some e → e < envs.length) :
    envDisplayFrom (envs ++ more) n env = envDisplayFrom envs n env :=
  envDisplayFrom_congr fun depth _ => walkEnv_append_of_closed more hclosed depth henv

theorem envDisplayPush_eq (hclosed : Closed envs) (henv : ∀ e, env = some e → e < envs.length)
    (slots : List V) :
    envDisplayPush (envDisplayFor envs env) envs.length =
      envDisplayFor (envs ++ [⟨slots, env⟩]) (some envs.length) := by
  have hparent : parentOf (envs ++ [⟨slots, env⟩]) envs.length = env := by
    simp [parentOf]
  have hcons : some envs.length :: envDisplayFrom (envs ++ [⟨slots, env⟩]) envDisplayCap env =
      envDisplayFrom (envs ++ [⟨slots, env⟩]) (envDisplayCap + 1) (some envs.length) := by
    rw [envDisplayFrom, hparent]
  rw [envDisplayPush, envDisplayFor, length_envDisplayFrom,
    ← envDisplayFrom_append_of_closed [⟨slots, env⟩] hclosed envDisplayCap henv, hcons,
    take_envDisplayFrom]
  rfl

end V12.Interp
