/-
V12.Interp.EnvDisplay — the displays of a stack of frames over a run
(`v12-interp/src/lib.rs`, `execute.rs`, `call_setup.rs`, `generator.rs`,
`generator_async.rs`, `eval_context.rs`).

The parent link of an environment is the `prototype` field every object has,
and a suspended generator keeps its environment there as well.
-/
import V12.Interp.Env
import V12.Lib.Run
import Mathlib.Data.Nat.Find

namespace V12.Interp

variable {V : Type}
variable {objects : List (EnvObject V)} {link : Option Nat} {obj : Nat}

/-! ## §1 The machine -/

/-- The parts of a `Frame` its environment accesses use. -/
structure Activation (V : Type) where
  env : Option Nat
  envDisplay : List (Option Nat)
  generator : Option Nat
  window : Nat → V

/-- The heap and the frames, innermost first. -/
structure DisplayMachine (V : Type) where
  objects : List (EnvObject V)
  frames : List (Activation V)

/-- What the machine does that bears on environments. Calls, constructions, accessors and
the main function `enter`; returns, throws and discarded frames `leave`. -/
inductive Event (V : Type) where
  | enter (capturedEnv : Option Nat) (window : Nat → V)
  | resume (generator : Nat) (window : Nat → V)
  | leave
  | suspend
  | instr (i : EnvInstr)
  | evalEnter (callerFunction : Bool) (window : Nat → V)
  | create (properties : List V) (prototype : Option Nat)
  | setPrototype (obj : Nat) (link : Option Nat)

def Activation.view (objects : List (EnvObject V)) (a : Activation V) : EnvFrame V :=
  ⟨objects, a.env, a.envDisplay, a.window⟩

def handle (objects : List (EnvObject V)) (h : Option Nat) : Option Nat :=
  h.filter fun e => e < objects.length

/-- `heap.get_mut(obj).prototype = link`. -/
def setParent (objects : List (EnvObject V)) (obj : Nat) (link : Option Nat) : List (EnvObject V) :=
  objects.modify obj fun o => { o with parent := link }

namespace DisplayMachine

def push (m : DisplayMachine V) (env : Option Nat) (generator : Option Nat) (window : Nat → V) :
    DisplayMachine V :=
  { m with frames := ⟨env, envDisplayFor m.objects env, generator, window⟩ :: m.frames }

/-- `suspend`: the environment goes into the generator's `prototype`. -/
def suspend (m : DisplayMachine V) : DisplayMachine V :=
  match m.frames with
  | [] => m
  | a :: rest =>
    match a.generator with
    | none => m
    | some g => ⟨setParent m.objects g a.env, rest⟩

/-- An arm of the dispatch loop, on the running frame; one that throws changes nothing. -/
def instr (undefined : V) (m : DisplayMachine V) (i : EnvInstr) : DisplayMachine V :=
  match m.frames with
  | [] => m
  | a :: rest =>
    match (a.view m.objects).exec undefined i with
    | none => m
    | some f => ⟨f.envs, { a with env := f.env, envDisplay := f.display, window := f.regs } :: rest⟩

/-- The local environment `run_compiled_child` gives a caller function that has none. -/
def ensureLocalEnv (m : DisplayMachine V) : DisplayMachine V :=
  let env := m.objects.length
  let objects := m.objects ++ ([⟨[], none⟩] : List (EnvObject V))
  match m.frames with
  | [] => ⟨objects, []⟩
  | a :: rest =>
    ⟨objects, { a with env := some env, envDisplay := envDisplayFor objects (some env) } :: rest⟩

/-- `run_compiled_child`: the eval's home environment hangs off the caller's. -/
def evalEnter (m : DisplayMachine V) (callerFunction : Bool) (window : Nat → V) :
    DisplayMachine V :=
  let parent := m.frames.head?.bind Activation.env
  let home := m.objects.length
  let grown : DisplayMachine V :=
    { m with objects := m.objects ++ ([⟨[], parent⟩] : List (EnvObject V)) }
  let caller := if callerFunction then grown.ensureLocalEnv else grown
  caller.push (some home) none window

def step (undefined : V) (m : DisplayMachine V) : Event V → DisplayMachine V
  | .enter env window => m.push (handle m.objects env) none window
  | .resume g window => m.push (parentOf m.objects g) (some g) window
  | .leave => { m with frames := m.frames.tail }
  | .suspend => m.suspend
  | .instr i => m.instr undefined i
  | .evalEnter callerFunction window => m.evalEnter callerFunction window
  | .create properties prototype =>
    { m with objects := m.objects ++ [⟨properties, handle m.objects prototype⟩] }
  | .setPrototype obj link =>
    { m with objects := setParent m.objects obj (handle m.objects link) }

def start : DisplayMachine V := ⟨[], []⟩

end DisplayMachine

/-! ## §2 What a frame should show -/

/-- `env_read` by the parent walk alone. -/
def EnvFrame.walkRead (f : EnvFrame V) (depth slot : Nat) : Option V :=
  (walkEnv f.envs f.env depth).bind fun e => slotAt f.envs e slot

/-- `env_write` by the parent walk alone. -/
def EnvFrame.walkWrite (f : EnvFrame V) (depth slot : Nat) (v : V) : Option (EnvFrame V) :=
  (walkEnv f.envs f.env depth).bind fun e =>
    (slotAt f.envs e slot).map fun _ => { f with envs := setSlot f.envs e slot v }

/-- The display lists the chain, and an access at any depth reaches the cell of the walk. -/
structure EnvFrame.ShowsWalk (f : EnvFrame V) : Prop where
  display : f.display = envDisplayFor f.envs f.env
  reads : ∀ depth slot, f.envRead depth slot = f.walkRead depth slot
  writes : ∀ depth slot v, f.envWrite depth slot v = f.walkWrite depth slot v

theorem EnvFrame.showsWalk_of_display {f : EnvFrame V}
    (h : f.display = envDisplayFor f.envs f.env) : f.ShowsWalk where
  display := h
  reads depth slot := by
    rw [EnvFrame.envRead, EnvFrame.envAt_eq h, EnvFrame.walkRead]
  writes depth slot v := by
    rw [EnvFrame.envWrite, EnvFrame.envAt_eq h, EnvFrame.walkWrite]

def DisplayMachine.Mirrored (m : DisplayMachine V) : Prop :=
  ∀ a ∈ m.frames, (a.view m.objects).ShowsWalk

/-- Rewriting the link of an object disturbs no frame: where a display shows the object
above its last entry, the link is the one the object has. -/
def Undisturbed (objects : List (EnvObject V)) (frames : List (Activation V)) (obj : Nat)
    (link : Option Nat) : Prop :=
  ∀ a ∈ frames, ∀ i, i + 1 < envDisplayCap → a.envDisplay[i]? = some (some obj) →
    parentOf objects obj = link

/-- A step that rewrites no link a live display shows: `[[SetPrototypeOf]]` of a shown object,
or a suspension into one. -/
def DisplayMachine.Keeps (m : DisplayMachine V) : Event V → Prop
  | .setPrototype obj link => Undisturbed m.objects m.frames obj (handle m.objects link)
  | .suspend =>
    ∀ a rest g, m.frames = a :: rest → a.generator = some g → Undisturbed m.objects rest g a.env
  | _ => True

/-! ## §3 Links after a change -/

theorem parentOf_setParent (objects : List (EnvObject V)) (obj : Nat) (link : Option Nat) (e : Nat) :
    parentOf (setParent objects obj link) e =
      if obj = e ∧ e < objects.length then link else parentOf objects e := by
  rw [parentOf, setParent, List.getElem?_modify, parentOf]
  by_cases he : obj = e
  · subst he
    by_cases hlt : obj < objects.length
    · simp [hlt]
    · simp [hlt]
  · simp [he]

@[simp] theorem length_setParent (objects : List (EnvObject V)) (obj : Nat) (link : Option Nat) :
    (setParent objects obj link).length = objects.length := by
  simp [setParent]

theorem lt_of_handle {h : Option Nat} {e : Nat} (he : handle objects h = some e) :
    e < objects.length := by
  obtain ⟨-, hlt⟩ := Option.filter_eq_some_iff.mp he
  exact of_decide_eq_true hlt

theorem closed_append (h : Closed objects) (slots : List V)
    (hlink : ∀ e, link = some e → e < objects.length) :
    Closed (objects ++ [⟨slots, link⟩]) := by
  intro e p hp
  have hlt := lt_of_parentOf hp
  rw [List.length_append, List.length_singleton] at hlt ⊢
  by_cases he : e < objects.length
  · rw [parentOf_append _ he] at hp
    have := h e p hp
    omega
  · have heq : e = objects.length := by omega
    subst heq
    have hlast : parentOf (objects ++ [⟨slots, link⟩]) objects.length = link := by simp [parentOf]
    rw [hlast] at hp
    have := hlink p hp
    omega

theorem closed_setParent (h : Closed objects) (hlink : ∀ e, link = some e → e < objects.length) :
    Closed (setParent objects obj link) := by
  intro e p hp
  rw [parentOf_setParent] at hp
  rw [length_setParent]
  split at hp
  · exact hlink p hp
  · exact h e p hp

theorem closed_setSlot (h : Closed objects) (e slot : Nat) (v : V) :
    Closed (setSlot objects e slot v) := by
  intro i p hp
  rw [parentOf_setSlot] at hp
  rw [length_setSlot]
  exact h i p hp

theorem walkEnv_setParent {env : Option Nat} {depth : Nat}
    (h : ∀ i, i < depth → walkEnv objects env i = some obj → parentOf objects obj = link) :
    walkEnv (setParent objects obj link) env depth = walkEnv objects env depth := by
  induction depth with
  | zero => rw [walkEnv_zero, walkEnv_zero]
  | succ depth ih =>
    have hbefore := ih fun i hi => h i (by omega)
    rw [walkEnv_succ', walkEnv_succ', hbefore]
    cases hwalk : walkEnv objects env depth with
    | none => rfl
    | some e =>
      simp only [Option.bind_some]
      rw [parentOf_setParent]
      split
      · rename_i hobj
        rw [← hobj.1]
        exact (h depth (by omega) (hobj.1 ▸ hwalk)).symm
      · rfl

theorem walkEnv_setParent_succ {i : Nat} {env : Option Nat} (hclosed : obj < objects.length)
    (hfirst : ∀ j, j < i → walkEnv objects env j ≠ some obj)
    (hi : walkEnv objects env i = some obj) :
    walkEnv (setParent objects obj link) env (i + 1) = link := by
  have hbefore : walkEnv (setParent objects obj link) env i = some obj := by
    rw [walkEnv_setParent fun j hj h => absurd h (hfirst j hj), hi]
  rw [walkEnv_succ', hbefore, Option.bind_some, parentOf_setParent, if_pos ⟨rfl, hclosed⟩]

/-! ## §4 The invariant -/

/-- Links and environments are allocated, and each display is the one of its frame. -/
structure DisplayMachine.Inv (m : DisplayMachine V) : Prop where
  closed : Closed m.objects
  heads : ∀ a ∈ m.frames, ∀ e, a.env = some e → e < m.objects.length
  displays : ∀ a ∈ m.frames, a.envDisplay = envDisplayFor m.objects a.env

namespace DisplayMachine

variable {m : DisplayMachine V} {link : Option Nat} {objects : List (EnvObject V)}

theorem Inv.mirrored (h : m.Inv) : m.Mirrored := by
  intro a ha
  exact EnvFrame.showsWalk_of_display (h.displays a ha)

theorem Inv.start : (start : DisplayMachine V).Inv where
  closed e p hp := by simp [DisplayMachine.start, parentOf] at hp
  heads a ha := by cases ha
  displays a ha := by cases ha

theorem Inv.push (h : m.Inv) {env : Option Nat} (henv : ∀ e, env = some e → e < m.objects.length)
    (generator : Option Nat) (window : Nat → V) : (m.push env generator window).Inv where
  closed := h.closed
  heads a ha := by
    rcases List.mem_cons.mp ha with rfl | ha
    · exact henv
    · exact h.heads a ha
  displays a ha := by
    rcases List.mem_cons.mp ha with rfl | ha
    · rfl
    · exact h.displays a ha

theorem Inv.create (h : m.Inv) (slots : List V)
    (hlink : ∀ e, link = some e → e < m.objects.length) :
    ({ m with objects := m.objects ++ [⟨slots, link⟩] } : DisplayMachine V).Inv where
  closed := closed_append h.closed slots hlink
  heads a ha e he := by
    have := h.heads a ha e he
    simp only [List.length_append, List.length_singleton]
    omega
  displays a ha := by
    rw [h.displays a ha]
    exact (envDisplayFrom_append_of_closed _ h.closed envDisplayCap (h.heads a ha)).symm

theorem Inv.leave (h : m.Inv) :
    ({ m with frames := m.frames.tail } : DisplayMachine V).Inv where
  closed := h.closed
  heads a ha := h.heads a (List.mem_of_mem_tail ha)
  displays a ha := h.displays a (List.mem_of_mem_tail ha)

theorem walkEnv_of_display {a : Activation V} {i : Nat}
    (h : a.envDisplay = envDisplayFor objects a.env) (hi : i < envDisplayCap) :
    a.envDisplay[i]? = some (walkEnv objects a.env i) := by
  rw [h, envDisplayFor, getElem?_envDisplayFrom objects hi]

theorem Inv.setParent (h : m.Inv) {frames : List (Activation V)} (hsub : ∀ a ∈ frames, a ∈ m.frames)
    {obj : Nat} (hlink : ∀ e, link = some e → e < m.objects.length)
    (hkeeps : Undisturbed m.objects frames obj link) :
    (⟨setParent m.objects obj link, frames⟩ : DisplayMachine V).Inv where
  closed := closed_setParent h.closed hlink
  heads a ha e he := by
    rw [length_setParent]
    exact h.heads a (hsub a ha) e he
  displays a ha := by
    have hdisplay := h.displays a (hsub a ha)
    rw [hdisplay]
    apply (envDisplayFrom_congr _).symm
    intro depth hdepth
    apply walkEnv_setParent
    intro i hi hwalk
    apply hkeeps a ha i (by omega)
    rw [walkEnv_of_display hdisplay (by omega), hwalk]

theorem undisturbed_of_display (hclosed : Closed objects) {a : Activation V} {obj : Nat}
    (henv : ∀ e, a.env = some e → e < objects.length)
    (hbefore : a.envDisplay = envDisplayFor objects a.env)
    (hafter : a.envDisplay = envDisplayFor (V12.Interp.setParent objects obj link) a.env) {i : Nat}
    (hi : i + 1 < envDisplayCap) (hshown : a.envDisplay[i]? = some (some obj)) :
    parentOf objects obj = link := by
  have hpasses : ∃ j, walkEnv objects a.env j = some obj := by
    rw [walkEnv_of_display hbefore (by omega)] at hshown
    exact ⟨i, Option.some.inj hshown⟩
  classical
  have hfirst := Nat.find_spec hpasses
  have hbelow : ∀ j, j < Nat.find hpasses → walkEnv objects a.env j ≠ some obj :=
    fun j hj => Nat.find_min hpasses hj
  have hle : Nat.find hpasses ≤ i := by
    apply Nat.find_min'
    rw [walkEnv_of_display hbefore (by omega)] at hshown
    exact Option.some.inj hshown
  have hlt : obj < objects.length := by
    cases hn : Nat.find hpasses with
    | zero =>
      rw [hn, walkEnv_zero] at hfirst
      exact henv obj hfirst
    | succ n =>
      rw [hn, walkEnv_succ'] at hfirst
      obtain ⟨e, -, hparent⟩ := Option.bind_eq_some_iff.mp hfirst
      exact hclosed e obj hparent
  have hnew : walkEnv (setParent objects obj link) a.env (Nat.find hpasses + 1) = link :=
    walkEnv_setParent_succ hlt hbelow hfirst
  have hold : walkEnv objects a.env (Nat.find hpasses + 1) = parentOf objects obj := by
    rw [walkEnv_succ', hfirst, Option.bind_some]
  have hread := walkEnv_of_display hbefore (i := Nat.find hpasses + 1) (by omega)
  rw [walkEnv_of_display hafter (by omega), hnew, hold] at hread
  exact (Option.some.inj hread).symm

/-! ## §5 Steps -/

theorem Inv.replaceHead {a b : Activation V} {rest : List (Activation V)}
    (h : (⟨objects, a :: rest⟩ : DisplayMachine V).Inv)
    (henv : ∀ e, b.env = some e → e < objects.length)
    (hdisplay : b.envDisplay = envDisplayFor objects b.env) :
    (⟨objects, b :: rest⟩ : DisplayMachine V).Inv where
  closed := h.closed
  heads c hc := by
    rcases List.mem_cons.mp hc with rfl | hc
    · exact henv
    · exact h.heads c (by simp [hc])
  displays c hc := by
    rcases List.mem_cons.mp hc with rfl | hc
    · exact hdisplay
    · exact h.displays c (by simp [hc])

theorem Inv.setSlot (h : m.Inv) (e slot : Nat) (v : V) :
    ({ m with objects := setSlot m.objects e slot v } : DisplayMachine V).Inv where
  closed := closed_setSlot h.closed e slot v
  heads a ha i hi := by
    rw [length_setSlot]
    exact h.heads a ha i hi
  displays a ha := by
    rw [h.displays a ha, envDisplayFor, envDisplayFor, envDisplayFrom_setSlot]

theorem Inv.instr (h : m.Inv) (undefined : V) (i : EnvInstr) :
    (m.instr undefined i).Inv := by
  obtain ⟨objects, frames⟩ := m
  cases frames with
  | nil => exact h
  | cons a rest =>
    have henv := h.heads a (by simp)
    have hdisplay := h.displays a (by simp)
    simp only [DisplayMachine.instr]
    cases hexec : (a.view objects).exec undefined i with
    | none => exact h
    | some f =>
      cases i with
      | newEnvironment slots =>
        cases hexec
        have hgrown := h.create (List.replicate slots undefined) henv
        refine hgrown.replaceHead (fun e he => ?_) ?_
        · cases he
          simp [Activation.view]
        · simp only [Activation.view]
          rw [hdisplay]
          exact envDisplayPush_eq h.closed henv _
      | popEnvironment =>
        cases hexec
        refine h.replaceHead (fun e he => ?_) rfl
        obtain ⟨child, -, hparent⟩ := Option.bind_eq_some_iff.mp he
        exact h.closed child e hparent
      | getEnvSlot dst depth slot =>
        obtain ⟨v, -, rfl⟩ := Option.map_eq_some_iff.mp hexec
        exact h.replaceHead henv hdisplay
      | setEnvSlot depth slot src =>
        obtain ⟨e, -, hwrite⟩ := Option.bind_eq_some_iff.mp hexec
        obtain ⟨old, -, rfl⟩ := Option.map_eq_some_iff.mp hwrite
        have hset := h.setSlot e slot (a.window src)
        exact hset.replaceHead (hset.heads a (by simp)) (hset.displays a (by simp))

theorem Inv.ensureLocalEnv (h : m.Inv) : m.ensureLocalEnv.Inv := by
  have hgrown : ({ m with objects := m.objects ++ [⟨[], none⟩] } : DisplayMachine V).Inv :=
    h.create [] (fun e he => by cases he)
  obtain ⟨objects, frames⟩ := m
  cases frames with
  | nil => exact hgrown
  | cons a rest =>
    refine hgrown.replaceHead (fun e he => ?_) rfl
    cases he
    simp

theorem Inv.evalEnter (h : m.Inv) (callerFunction : Bool) (window : Nat → V) :
    (m.evalEnter callerFunction window).Inv := by
  have hparent : ∀ e, m.frames.head?.bind Activation.env = some e → e < m.objects.length := by
    intro e he
    obtain ⟨a, ha, henv⟩ := Option.bind_eq_some_iff.mp he
    exact h.heads a (List.mem_of_mem_head? ha) e henv
  have hhome := h.create [] hparent
  unfold DisplayMachine.evalEnter
  cases callerFunction with
  | false =>
    refine hhome.push (fun e he => ?_) none window
    cases he
    simp
  | true =>
    refine hhome.ensureLocalEnv.push (fun e he => ?_) none window
    cases he
    unfold DisplayMachine.ensureLocalEnv
    cases m.frames with
    | nil => simp
    | cons a rest => simp

/-- **Step**: what keeps the links of the shown objects keeps the displays. -/
theorem inv_step (undefined : V) (event : Event V) (h : m.Inv) (hkeeps : m.Keeps event) :
    (m.step undefined event).Inv := by
  cases event with
  | enter env window => exact h.push (fun e he => lt_of_handle he) none window
  | resume g window => exact h.push (fun e he => h.closed g e he) (some g) window
  | leave => exact h.leave
  | suspend =>
    obtain ⟨objects, frames⟩ := m
    cases frames with
    | nil => exact h
    | cons a rest =>
      simp only [step, suspend]
      cases hgen : a.generator with
      | none => exact h
      | some g =>
        have henv := h.heads a (by simp)
        exact h.setParent (fun b hb => by simp [hb]) henv (hkeeps a rest g rfl hgen)
  | instr i => exact h.instr undefined i
  | evalEnter callerFunction window => exact h.evalEnter callerFunction window
  | create properties prototype => exact h.create properties fun e he => lt_of_handle he
  | setPrototype obj link =>
    exact h.setParent (fun _ ha => ha) (fun e he => lt_of_handle he) hkeeps

theorem keeps_of_mirrored (undefined : V) (event : Event V) (h : m.Inv)
    (hafter : (m.step undefined event).Mirrored) : m.Keeps event := by
  cases event with
  | suspend =>
    intro a rest g hframes hgen b hb i hi hshown
    have hbm : b ∈ m.frames := by simp [hframes, hb]
    have hstep : m.step undefined .suspend = ⟨setParent m.objects g a.env, rest⟩ := by
      simp only [step, suspend, hframes, hgen]
    rw [hstep] at hafter
    exact undisturbed_of_display h.closed (h.heads b hbm) (h.displays b hbm) (hafter b hb).display
      hi hshown
  | setPrototype obj link =>
    intro b hb i hi hshown
    exact undisturbed_of_display h.closed (h.heads b hb) (h.displays b hb) (hafter b hb).display
      hi hshown
  | _ => trivial

end DisplayMachine

/-- **The displays over a run**: every frame that is live at any point of a run shows its
parent chain exactly when no step of the run rewrites a link that a live display shows. -/
theorem displays_mirror_iff (undefined : V) (events : List (Event V)) :
    (∀ before after, events = before ++ after →
        (Lib.run (DisplayMachine.step undefined) DisplayMachine.start before).Mirrored) ↔
      Lib.StepsMeet (DisplayMachine.step undefined) DisplayMachine.Keeps DisplayMachine.start
        events :=
  Lib.states_iff_of_invariant (I := DisplayMachine.Inv) (P := DisplayMachine.Mirrored)
    (fun _ h => h.mirrored)
    (fun s a h => DisplayMachine.keeps_of_mirrored undefined (m := s) a h)
    (fun s a h => DisplayMachine.inv_step undefined (m := s) a h) DisplayMachine.Inv.start events

/-- A generator that was called but not started shows the environment it captured as its
prototype; a function of that environment rewires it. -/
theorem leaked_environment_rewired :
    ¬ (Lib.run (DisplayMachine.step 0) DisplayMachine.start
        [.enter none fun _ => 0, .instr (.newEnvironment 1), .create [] (some 0), .create [] none,
          .setPrototype 0 (some 2)]).Mirrored := by
  intro h
  have hshows := (h _ (List.mem_cons_self ..)).display
  revert hshows
  decide

end V12.Interp
