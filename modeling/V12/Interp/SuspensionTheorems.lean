/-
V12.Interp.SuspensionTheorems — when resuming an async function restores it and leaves
the others alone.

§1 is about what a pending await carries. §2 is the invariant of runs: the windows lie in
order below the top of the stack, and the object of each suspended function holds what the
function had.
-/
import V12.Bytecode.WideTheorems
import V12.Interp.Suspension

namespace V12.Suspension

open V12.Bytecode Lib
open V12.Awaits (PromiseState AwaitResume)

variable {V E P : Type}
variable {host : Host V P} {promises : P → PromiseState V} {awaited : Awaited V P} {val : V}
  {isReject : Bool} {frames rest : List (Frame V E)} {s : State V E P} {g width : Nat}
  {gen : Gen V E} {saved : Suspended V E P}

/-! ## §1 What a pending await carries -/

def Carries (host : Host V P) (promises : P → PromiseState V) (awaited : Awaited V P) (val : V)
    (isReject : Bool) : Prop :=
  if isReject then settlement promises awaited = some (val, true)
  else
    match host.asPromise val with
    | none => settlement promises awaited = some (val, false)
    | some p => awaited = .promise p

theorem carries_value {v : V} (hv : host.asPromise v = none) :
    Carries host promises (.value v) v false := by
  simp [Carries, hv, settlement]

theorem carries_promiseResolveForAwait (hplain : ∀ p, Plain host (promises p)) (arg : V)
    (read : ThenRead V) :
    Carries host promises (awaitedOf host arg read)
      (promiseResolveForAwait host promises arg read).1
      (promiseResolveForAwait host promises arg read).2 := by
  cases harg : host.asPromise arg with
  | some p =>
    have hp := hplain p
    cases hstate : promises p with
    | pending => simp [promiseResolveForAwait, awaitedOf, harg, hstate, Carries]
    | fulfilled v =>
      rw [hstate] at hp
      have hv : host.asPromise v = none := by
        simpa [Plain] using hp
      simp [promiseResolveForAwait, awaitedOf, harg, hstate, Carries, settlement, hv]
    | rejected e => simp [promiseResolveForAwait, awaitedOf, harg, hstate, Carries, settlement]
  | none =>
    cases read with
    | notThenable => simp [promiseResolveForAwait, awaitedOf, harg, Carries, settlement]
    | abrupt e => simp [promiseResolveForAwait, awaitedOf, harg, Carries, settlement]
    | thenable promise =>
      cases hpromise : host.asPromise promise with
      | none => simp [promiseResolveForAwait, awaitedOf, harg, Carries, settlement, hpromise]
      | some p => simp [promiseResolveForAwait, awaitedOf, harg, Carries, hpromise]

theorem Carries.settlement_eq {value : V} {reject : Bool}
    (h : Carries host promises awaited val isReject)
    (hrun : awaitResumeValue host promises val isReject = .run value reject) :
    settlement promises awaited = some (value, reject) := by
  cases isReject with
  | true =>
    simp only [awaitResumeValue, if_true, AwaitResume.run.injEq] at hrun
    obtain ⟨rfl, rfl⟩ := hrun
    exact h
  | false =>
    simp only [awaitResumeValue, Bool.false_eq_true, if_false] at hrun
    simp only [Carries, Bool.false_eq_true, if_false] at h
    cases hval : host.asPromise val with
    | none =>
      simp only [hval, AwaitResume.run.injEq] at hrun h
      obtain ⟨rfl, rfl⟩ := hrun
      exact h
    | some p =>
      simp only [hval] at hrun h
      subst h
      cases hstate : promises p with
      | pending => simp [hstate] at hrun
      | fulfilled v =>
        simp only [hstate] at hrun
        by_cases hv : (host.asPromise v).isSome
        · simp [hv] at hrun
        · simp only [hv, Bool.false_eq_true, if_false, AwaitResume.run.injEq] at hrun
          obtain ⟨rfl, rfl⟩ := hrun
          simp [settlement, hstate]
      | rejected e =>
        simp only [hstate, AwaitResume.run.injEq] at hrun
        obtain ⟨rfl, rfl⟩ := hrun
        simp [settlement, hstate]

theorem not_adopt (hplain : ∀ p, Plain host (promises p)) (val : V) (isReject : Bool)
    (payload : V) :
    awaitResumeValue host promises val isReject ≠ .adopt payload := by
  intro hadopt
  cases isReject with
  | true => simp [awaitResumeValue] at hadopt
  | false =>
    simp only [awaitResumeValue, Bool.false_eq_true, if_false] at hadopt
    cases hval : host.asPromise val with
    | none => simp [hval] at hadopt
    | some p =>
      have hp := hplain p
      cases hstate : promises p with
      | pending => simp [hval, hstate] at hadopt
      | rejected e => simp [hval, hstate] at hadopt
      | fulfilled v =>
        rw [hstate] at hp
        have hv : host.asPromise v = none := by
          simpa [Plain] using hp
        simp [hval, hstate, hv] at hadopt

theorem settlement_mono [DecidableEq P] {p : P} {outcome : PromiseState V}
    (hp : promises p = .pending) {r : V × Bool} (h : settlement promises awaited = some r) :
    settlement (Function.update promises p outcome) awaited = some r := by
  cases awaited with
  | value v => exact h
  | thrown e => exact h
  | promise q =>
    have hne : q ≠ p := by
      rintro rfl
      simp [settlement, hp] at h
    simpa only [settlement, Function.update_of_ne hne] using h

theorem Carries.mono [DecidableEq P] {p : P} {outcome : PromiseState V} (hp : promises p = .pending)
    (h : Carries host promises awaited val isReject) :
    Carries host (Function.update promises p outcome) awaited val isReject := by
  cases isReject with
  | true => exact settlement_mono hp h
  | false =>
    simp only [Carries, Bool.false_eq_true, if_false] at h ⊢
    cases hval : host.asPromise val with
    | none =>
      simp only [hval] at h ⊢
      exact settlement_mono hp h
    | some q => simpa only [hval] using h

/-! ## §2 The invariant -/

/-- The windows of the frames lie below the top, one above the other. -/
def Stacked : List (Frame V E) → Nat → Prop
  | [], _ => True
  | f :: rest, top => f.base + f.maxRegs ≤ top ∧ Stacked rest f.base

theorem Stacked.le {top : Nat} (h : Stacked frames top) {f : Frame V E} (hf : f ∈ frames) :
    f.base + f.maxRegs ≤ top := by
  induction frames generalizing top with
  | nil => cases hf
  | cons f' rest ih =>
    rcases List.mem_cons.mp hf with rfl | hf
    · exact h.1
    · exact Nat.le_trans (ih h.2 hf) (Nat.le_trans (Nat.le_add_right ..) h.1)

/-- The object holds the function as it was when it suspended. -/
structure Saves (fn : Option Func) (gen : Gen V E) (saved : Suspended V E P) : Prop where
  elements : gen.elements = saved.registers
  env : gen.env = saved.env
  pc : gen.pc = saved.next
  dst : ∀ d, saved.dst = some d → gen.dst = d ∧ saved.next ≠ 0
  start : saved.dst = none → saved.next = 0
  func : ∃ f, fn = some f ∧ f.isAsync = true ∧ saved.registers.length = f.maxRegs

def State.isAsync (s : State V E P) (program fnIdx : Nat) : Bool :=
  (s.func program fnIdx).any Func.isAsync

/-- Two frames do not share the generator of an async function. -/
def Apart (async : Nat → Nat → Bool) (f f' : Frame V E) : Prop :=
  async f.program f.fnIdx = true → ∀ g, f.generator = some g → f'.generator ≠ some g

structure Inv (host : Host V P) (s : State V E P) : Prop where
  stacked : Stacked s.frames s.stack.length
  funcs : ∀ f ∈ s.frames, s.Known f.program ∧
    ∃ fn, s.func f.program f.fnIdx = some fn ∧ f.maxRegs = fn.maxRegs
  gens : ∀ g gen, s.gens g = some gen → g < s.count ∧ s.Known gen.program ∧
    ∃ fn, s.func gen.program gen.fnIdx = some fn ∧ (fn.isGenerator = false → gen.promise.isSome)
  /-- A function is either in a frame or suspended. -/
  active : ∀ f ∈ s.frames, ∀ g, f.generator = some g → s.suspended g = none ∧
    ∃ gen, s.gens g = some gen ∧ gen.fnIdx = f.fnIdx ∧ gen.program = f.program
  distinct : s.frames.Pairwise (Apart s.isAsync)
  saved : ∀ g saved, s.suspended g = some saved →
    ∃ gen, s.gens g = some gen ∧ Saves (s.func gen.program gen.fnIdx) gen saved
  awaits : ∀ g val isReject, (g, val, isReject) ∈ s.pendingAwaits → ∃ saved awaited,
    s.suspended g = some saved ∧ saved.awaited = some awaited ∧
    Carries host s.promises awaited val isReject
  once : (s.pendingAwaits.map Prod.fst).Nodup
  plain : ∀ p, Plain host (s.promises p)

theorem Inv.unused (h : Inv host s) :
    s.suspended s.count = none ∧ ∀ f ∈ s.frames, f.generator ≠ some s.count := by
  constructor
  · cases hsaved : s.suspended s.count with
    | none => rfl
    | some saved =>
      obtain ⟨gen, hgen, -⟩ := h.saved _ saved hsaved
      exact absurd (h.gens _ gen hgen).1 (Nat.lt_irrefl _)
  · intro f hf hg
    obtain ⟨-, gen, hgen, -⟩ := h.active f hf _ hg
    exact absurd (h.gens _ gen hgen).1 (Nat.lt_irrefl _)

/-! ## §3 Frames that go or work -/

/-- What is left of the frames: some of them, with their function and generator. -/
structure Kept (frames frames' : List (Frame V E)) : Prop where
  of_mem : ∀ f' ∈ frames', ∃ f ∈ frames, f'.program = f.program ∧ f'.fnIdx = f.fnIdx ∧
    f'.maxRegs = f.maxRegs ∧ f'.generator = f.generator
  apart : ∀ async, frames.Pairwise (Apart async) → frames'.Pairwise (Apart async)

theorem Kept.tail (f : Frame V E) (rest : List (Frame V E)) : Kept (f :: rest) rest where
  of_mem f' hf' := ⟨f', List.mem_cons_of_mem _ hf', rfl, rfl, rfl, rfl⟩
  apart _ h := h.of_cons

theorem Kept.trans {frames' frames'' : List (Frame V E)} (h : Kept frames frames')
    (h' : Kept frames' frames'') : Kept frames frames'' where
  of_mem f hf := by
    obtain ⟨f', hf', hprogram, hidx, hregs, hgen⟩ := h'.of_mem f hf
    obtain ⟨f'', hf'', hprogram', hidx', hregs', hgen'⟩ := h.of_mem f' hf'
    exact ⟨f'', hf'', hprogram.trans hprogram', hidx.trans hidx', hregs.trans hregs',
      hgen.trans hgen'⟩
  apart async hapart := h'.apart async (h.apart async hapart)

theorem Kept.head {f f' : Frame V E} (rest : List (Frame V E)) (hprogram : f'.program = f.program)
    (hidx : f'.fnIdx = f.fnIdx) (hregs : f'.maxRegs = f.maxRegs)
    (hgen : f'.generator = f.generator) : Kept (f :: rest) (f' :: rest) where
  of_mem a ha := by
    rcases List.mem_cons.mp ha with rfl | ha
    · exact ⟨f, List.mem_cons_self .., hprogram, hidx, hregs, hgen⟩
    · exact ⟨a, List.mem_cons_of_mem _ ha, rfl, rfl, rfl, rfl⟩
  apart async hapart := by
    rw [List.pairwise_cons] at hapart ⊢
    refine ⟨fun a ha => ?_, hapart.2⟩
    have hhead := hapart.1 a ha
    simpa only [Apart, hprogram, hidx, hgen] using hhead

theorem Inv.keep (h : Inv host s) {stack : List V} (hkept : Kept s.frames frames)
    (hstacked : Stacked frames stack.length) : Inv host { s with frames, stack } := by
  refine { h with
    stacked := hstacked, funcs := ?_, active := ?_, distinct := hkept.apart _ h.distinct }
  · intro f hf
    obtain ⟨f', hf', hprogram, hidx, hregs, -⟩ := hkept.of_mem f hf
    rw [hprogram, hidx, hregs]
    exact h.funcs f' hf'
  · intro f hf g hg
    obtain ⟨f', hf', hprogram, hidx, -, hgen⟩ := hkept.of_mem f hf
    rw [hprogram, hidx]
    exact h.active f' hf' g (hgen ▸ hg)

theorem length_deliver (stack : List V) (base maxRegs depth : Nat) (exc undefined : V) :
    (deliver stack base maxRegs depth exc undefined).length = base + maxRegs := by
  simp [deliver]

theorem unwind_kept (host : Host V P) (s : State V E P) (exc : V) (stopAt : Option Nat)
    {stack : List V} (hstacked : Stacked frames stack.length) :
    Kept frames (s.unwind host exc stopAt frames stack).1 ∧
      Stacked (s.unwind host exc stopAt frames stack).1
        (s.unwind host exc stopAt frames stack).2.1.length := by
  induction frames generalizing stack with
  | nil => exact ⟨⟨nofun, fun _ h => h⟩, trivial⟩
  | cons f rest ih =>
    have hcut : Stacked rest (stack.take f.base).length := by
      rw [List.length_take, Nat.min_eq_left (Nat.le_trans (Nat.le_add_right ..) hstacked.1)]
      exact hstacked.2
    simp only [State.unwind]
    cases s.covering f.program f.fnIdx f.pc with
    | some h =>
      refine ⟨Kept.head rest rfl rfl rfl rfl, ?_, hstacked.2⟩
      rw [length_deliver]
    | none =>
      by_cases hstop : stopAt = some rest.length
      · simp only [hstop, if_true]
        exact ⟨Kept.tail f rest, hcut⟩
      · simp only [hstop, if_false]
        obtain ⟨hkept, hleft⟩ := ih hcut
        exact ⟨(Kept.tail f rest).trans hkept, hleft⟩

theorem Inv.deposit (h : Inv host s) (instrs : List Instr) (v : V) :
    Inv host (s.deposit host instrs v) := by
  simp only [State.deposit]
  cases hframes : s.frames with
  | nil => exact h
  | cons caller rest =>
    cases hheader : decodeParkedCall instrs caller.pc with
    | none =>
      simp only [hheader]
      exact h
    | some d =>
      obtain ⟨isConstruct, dst, width⟩ := d
      have hstacked := h.stacked
      rw [hframes] at hstacked
      have htop : caller.base + caller.maxRegs ≤
          (writeAt s.stack (caller.base + dst) v host.undefined).length :=
        Nat.le_trans hstacked.1 (length_writeAt ..)
      have hkept : Kept s.frames ({ caller with pc := caller.pc + width } :: rest) := by
        rw [hframes]
        exact Kept.head rest rfl rfl rfl rfl
      simp only [hheader]
      exact h.keep hkept ⟨htop, hstacked.2⟩

theorem Inv.work (h : Inv host s) (registers : List V) (pc : Nat) (env : Option E)
    (arguments : Option V) : Inv host (work s registers pc env arguments) := by
  simp only [V12.Suspension.work]
  cases hframes : s.frames with
  | nil => exact h
  | cons f rest =>
    have hstacked := h.stacked
    rw [hframes] at hstacked
    by_cases hlength : registers.length = f.maxRegs
    · have hkept : Kept s.frames ({ f with pc, env, arguments } :: rest) := by
        rw [hframes]
        exact Kept.head rest rfl rfl rfl rfl
      have hstack : (s.stack.take f.base ++ registers ++ s.stack.drop (f.base + f.maxRegs)).length =
          s.stack.length := by
        have hfit := hstacked.1
        simp only [List.length_append, List.length_take, List.length_drop, hlength]
        omega
      have htop : f.base + f.maxRegs ≤
          (s.stack.take f.base ++ registers ++ s.stack.drop (f.base + f.maxRegs)).length := by
        rw [hstack]
        exact hstacked.1
      simp only [hlength, if_true]
      exact h.keep hkept ⟨htop, hstacked.2⟩
    · simp only [hlength, if_false]
      exact h

theorem Inv.call (h : Inv host s) (fnIdx program base : Nat) (registers : List V) (env : Option E)
    (newTarget arguments : Option V) :
    Inv host (call s fnIdx program base registers env newTarget arguments) := by
  simp only [V12.Suspension.call]
  cases hfn : s.func program fnIdx with
  | none => exact h
  | some fn =>
    by_cases hguard : s.Known program ∧ registers.length = fn.maxRegs ∧ s.top ≤ base ∧
        base ≤ s.stack.length
    · obtain ⟨hknown, hlength, htop, hbase⟩ := hguard
      simp only [hknown, hlength, htop, hbase, and_self, if_true]
      refine { h with stacked := ?_, funcs := ?_, active := ?_, distinct := ?_ }
      · refine ⟨?_, ?_⟩
        · simp only [List.length_append, List.length_take, hlength]
          omega
        · have hstacked := h.stacked
          simp only [State.top] at htop
          cases hframes : s.frames with
          | nil => trivial
          | cons f rest =>
            rw [hframes] at hstacked htop
            exact ⟨htop, hstacked.2⟩
      · intro f hf
        rcases List.mem_cons.mp hf with rfl | hf
        · exact ⟨hknown, fn, hfn, rfl⟩
        · exact h.funcs f hf
      · intro f hf g hg
        rcases List.mem_cons.mp hf with rfl | hf
        · cases hg
        · exact h.active f hf g hg
      · exact List.pairwise_cons.mpr ⟨fun _ _ _ _ hg => (nomatch hg), h.distinct⟩
    · simp only [hguard, if_false]
      exact h

theorem Inv.pop (h : Inv host s) {f : Frame V E} (hframes : s.frames = f :: rest) :
    Inv host { s with stack := s.stack.take f.base, frames := rest } := by
  have hstacked := h.stacked
  rw [hframes] at hstacked
  have hkept : Kept s.frames rest := by
    rw [hframes]
    exact Kept.tail f rest
  refine h.keep hkept ?_
  rw [List.length_take, Nat.min_eq_left (Nat.le_trans (Nat.le_add_right ..) hstacked.1)]
  exact hstacked.2

theorem Inv.returns (h : Inv host s) (result : V) :
    Inv host (returns host s result) := by
  simp only [V12.Suspension.returns]
  cases hframes : s.frames with
  | nil => exact h
  | cons f below =>
    cases below with
    | nil => exact h
    | cons caller rest =>
      cases hgen : f.generator with
      | some g =>
        simp only [hgen]
        exact h
      | none =>
        cases hfn : s.func caller.program caller.fnIdx with
        | none =>
          simp only [hgen, hfn]
          exact h
        | some fn =>
          simp only [hgen, hfn]
          exact (h.pop hframes).deposit fn.code.instrs result

theorem Inv.setGen (h : Inv host s) {gen' : Gen V E} (hnone : s.suspended g = none)
    (hgen : s.gens g = some gen) (hidx : gen'.fnIdx = gen.fnIdx)
    (hprogram : gen'.program = gen.program) (hpromise : gen'.promise = gen.promise) :
    Inv host { s with gens := Function.update s.gens g (some gen') } := by
  refine { h with gens := ?_, active := ?_, saved := ?_ }
  · intro a old hold
    by_cases hne : a = g
    · subst hne
      have hold : Function.update s.gens a (some gen') a = some old := hold
      rw [Function.update_self] at hold
      cases hold
      have hgens := h.gens a gen hgen
      rwa [← hidx, ← hprogram, ← hpromise] at hgens
    · exact h.gens a old ((Function.update_of_ne hne ..).symm.trans hold)
  · intro f hf a ha
    obtain ⟨hactive, old, hold, hidx', hprogram'⟩ := h.active f hf a ha
    by_cases hne : a = g
    · subst hne
      rw [hgen] at hold
      cases hold
      exact ⟨hactive, gen', Function.update_self .., hidx.trans hidx', hprogram.trans hprogram'⟩
    · exact ⟨hactive, old, (Function.update_of_ne hne ..).trans hold, hidx', hprogram'⟩
  · intro a saved hsaved
    have hne : a ≠ g := by
      rintro rfl
      have hsaved : s.suspended a = some saved := hsaved
      rw [hnone] at hsaved
      cases hsaved
    obtain ⟨old, hold, hs⟩ := h.saved a saved hsaved
    exact ⟨old, (Function.update_of_ne hne ..).trans hold, hs⟩

theorem Inv.finish (h : Inv host s) {f : Frame V E} (result : V) (isError : Bool)
    (hnone : ∀ g, f.generator = some g → s.suspended g = none) :
    Inv host (s.finish f result isError) := by
  simp only [State.finish]
  cases hg : f.generator with
  | none => exact h
  | some g =>
    cases hgen : s.gens g with
    | none =>
      simp only [hgen]
      exact h
    | some gen =>
      simp only [hgen]
      let gen' : Gen V E := { gen with done := true }
      have hset : Inv host { s with gens := Function.update s.gens g (some gen') } :=
        h.setGen (hnone g hg) hgen rfl rfl rfl
      exact { hset with }

theorem finish_suspended (s : State V E P) (f : Frame V E) (result : V) (isError : Bool) :
    (s.finish f result isError).suspended = s.suspended := by
  simp only [State.finish]
  split <;> [rfl; split <;> rfl]

/-- The generators of the frames that go. -/
theorem Inv.finishAll {gone : List (Frame V E)} (h : Inv host s) (exc : V)
    (hnone : ∀ f ∈ gone, ∀ g, f.generator = some g → s.suspended g = none) :
    Inv host (gone.foldl (fun s f => s.finish f exc true) s) := by
  induction gone generalizing s with
  | nil => exact h
  | cons f gone ih =>
    refine ih (h.finish exc true (hnone f (List.mem_cons_self ..))) fun f' hf' g hg => ?_
    rw [finish_suspended]
    exact hnone f' (List.mem_cons_of_mem _ hf') g hg

theorem Inv.leave (h : Inv host s) (result : V) (isError : Bool) :
    Inv host (leave s result isError) := by
  simp only [V12.Suspension.leave]
  cases hframes : s.frames with
  | nil => exact h
  | cons f rest =>
    have hmem : f ∈ s.frames := by
      rw [hframes]
      exact List.mem_cons_self ..
    exact (h.pop hframes).finish result isError fun g hg => (h.active f hmem g hg).1

/-! ## §4 Suspending and resuming -/

theorem Inv.park (h : Inv host s) (hgen : s.gens g = some gen)
    (hs : Saves (s.func gen.program gen.fnIdx) gen saved) (hnone : s.suspended g = none)
    (hfree : ∀ f ∈ s.frames, f.generator ≠ some g) :
    Inv host { s with suspended := Function.update s.suspended g (some saved) } := by
  refine { h with active := ?_, saved := ?_, awaits := ?_ }
  · intro f hf g' hg'
    obtain ⟨hnone', hrest⟩ := h.active f hf g' hg'
    have hne : g' ≠ g := by
      rintro rfl
      exact hfree f hf hg'
    exact ⟨(Function.update_of_ne hne ..).trans hnone', hrest⟩
  · intro g' saved' hsaved'
    by_cases hne : g' = g
    · subst hne
      have hsaved' : Function.update s.suspended g' (some saved) g' = some saved' := hsaved'
      rw [Function.update_self] at hsaved'
      cases hsaved'
      exact ⟨gen, hgen, hs⟩
    · exact h.saved g' saved' ((Function.update_of_ne hne ..).symm.trans hsaved')
  · intro g' val isReject hentry
    obtain ⟨saved', awaited, hsaved', hrest⟩ := h.awaits g' val isReject hentry
    have hne : g' ≠ g := by
      rintro rfl
      rw [hnone] at hsaved'
      cases hsaved'
    exact ⟨saved', awaited, (Function.update_of_ne hne ..).trans hsaved', hrest⟩

theorem Inv.suspend (h : Inv host s) {f : Frame V E} (hframes : s.frames = f :: rest)
    (hg : f.generator = some g) (hgen : s.gens g = some gen) (dst : Nat) (hwidth : 0 < width)
    (awaited : Option (Awaited V P)) :
    Inv host (s.suspend host f rest g gen dst width awaited) := by
  have hmem : f ∈ s.frames := by
    rw [hframes]
    exact List.mem_cons_self ..
  obtain ⟨hnone, gen', hgen', hidx, hprogram⟩ := h.active f hmem g hg
  rw [hgen] at hgen'
  cases hgen'
  obtain ⟨-, fn, hfn, hregs⟩ := h.funcs f hmem
  have hlength : (s.registers f).length = f.maxRegs := length_window (h.stacked.le hmem)
  let gen' : Gen V E :=
    { gen with
      pc := f.pc + width
      dst
      elements := resize (window s.stack f.base f.maxRegs) f.maxRegs host.undefined
      env := f.env
      done := false }
  have hset : Inv host { s with
      stack := s.stack.take f.base, frames := rest
      gens := Function.update s.gens g (some gen') } :=
    (h.pop hframes).setGen hnone hgen rfl rfl rfl
  by_cases hasync : (s.func f.program f.fnIdx).any Func.isAsync = true
  · have hfree : ∀ f' ∈ rest, f'.generator ≠ some g := by
      have hdistinct := h.distinct
      rw [hframes, List.pairwise_cons] at hdistinct
      exact fun f' hf' => hdistinct.1 f' hf' hasync g hg
    simp only [State.suspend, hasync, if_true]
    refine hset.park (Function.update_self ..) ?_ hnone hfree
    exact {
      elements := resize_of_length_eq hlength _
      env := rfl
      pc := rfl
      dst := fun d hd => ⟨Option.some.inj hd, Nat.ne_of_gt (Nat.add_pos_right _ hwidth)⟩
      start := nofun
      func := by
        refine ⟨fn, ?_, by simpa [hfn] using hasync, hlength.trans hregs⟩
        change s.func gen.program gen.fnIdx = some fn
        rw [hprogram, hidx]
        exact hfn }
  · simp only [State.suspend, hasync]
    exact hset

theorem Inv.pushAwait (h : Inv host s) (hsaved : s.suspended g = some saved)
    (hawaited : saved.awaited = some awaited)
    (hcarries : Carries host s.promises awaited val isReject)
    (hnew : g ∉ s.pendingAwaits.map Prod.fst) :
    Inv host { s with pendingAwaits := s.pendingAwaits ++ [(g, val, isReject)] } := by
  refine { h with awaits := ?_, once := ?_ }
  · intro g' val' isReject' hentry
    rcases List.mem_append.mp hentry with hentry | hentry
    · exact h.awaits g' val' isReject' hentry
    · obtain ⟨rfl, rfl, rfl⟩ : g' = g ∧ val' = val ∧ isReject' = isReject := by
        simpa using hentry
      exact ⟨saved, awaited, hsaved, hawaited, hcarries⟩
  · rw [List.map_append, List.nodup_append]
    refine ⟨h.once, by simp, ?_⟩
    rintro a ha b hb rfl
    simp only [List.map_cons, List.map_nil, List.mem_singleton] at hb
    exact hnew (hb ▸ ha)

theorem Inv.notPending (h : Inv host s) (hnone : s.suspended g = none) :
    g ∉ s.pendingAwaits.map Prod.fst := by
  intro hmem
  obtain ⟨⟨g', val, isReject⟩, hentry, rfl⟩ := List.mem_map.mp hmem
  obtain ⟨saved, -, hsaved, -⟩ := h.awaits g' val isReject hentry
  rw [hnone] at hsaved
  cases hsaved

theorem length_restored (saved : Suspended V E P) (value : V) :
    (restored saved value).length = saved.registers.length := by
  cases hdst : saved.dst with
  | none => simp [restored, hdst]
  | some dst => simp [restored, hdst]

def resumedFrame (s : State V E P) (g : Nat) (gen : Gen V E) (saved : Suspended V E P) : Frame V E where
  fnIdx := gen.fnIdx
  program := gen.program
  pc := saved.next
  base := s.stack.length
  maxRegs := saved.registers.length
  env := saved.env
  generator := some g
  newTarget := none
  arguments := gen.arguments

def State.onTop (s : State V E P) (g : Nat) (gen : Gen V E) (saved : Suspended V E P) (value : V) :
    State V E P :=
  { s with
    stack := s.stack ++ restored saved value
    frames := resumedFrame s g gen saved :: s.frames
    suspended := Function.update s.suspended g none }

theorem resumeNested_value (host : Host V P)
    (hs : Saves (s.func gen.program gen.fnIdx) gen saved) (value : V) :
    s.resumeNested host g gen value false = (s.onTop g gen saved value, none) := by
  obtain ⟨fn, hfn, -, hlength⟩ := hs.func
  have hrestored : (if gen.pc ≠ 0 ∧ gen.dst < fn.maxRegs then
      (resize gen.elements fn.maxRegs host.undefined).set gen.dst value
      else resize gen.elements fn.maxRegs host.undefined) = restored saved value := by
    rw [hs.elements, resize_of_length_eq hlength, hs.pc]
    cases hdst : saved.dst with
    | none => simp [restored, hdst, hs.start hdst]
    | some d =>
      obtain ⟨hd, hnext⟩ := hs.dst d hdst
      simp only [restored, hdst, hd]
      by_cases hlt : d < fn.maxRegs
      · rw [if_pos ⟨hnext, hlt⟩]
      · rw [if_neg fun hand => hlt hand.2, List.set_eq_of_length_le (by omega)]
  simp only [State.resumeNested, hfn, hrestored, Bool.false_eq_true, if_false]
  simp only [hs.env, hs.pc, ← hlength]
  rfl

theorem resumeNested_eq_unwind (host : Host V P)
    (hs : Saves (s.func gen.program gen.fnIdx) gen saved)
    (hplain : (s.func gen.program gen.fnIdx).any Func.isAsyncFn = true) (exc : V) :
    s.resumeNested host g gen exc true =
      match (s.onTop g gen saved exc).unwind host exc (some s.frames.length)
        (resumedFrame s g gen saved :: s.frames) (s.stack ++ restored saved exc) with
      | (frames, stack, true) => ({ s.onTop g gen saved exc with frames, stack }, none)
      | (frames, stack, false) => ({ s.onTop g gen saved exc with frames, stack }, some exc) := by
  obtain ⟨fn, hfn, -, hlength⟩ := hs.func
  have hkind : (fn.isAsync && fn.isGenerator) = false := by
    simp only [hfn, Option.any_some, Func.isAsyncFn] at hplain
    simp only [Bool.and_eq_true, Bool.not_eq_true'] at hplain
    rw [hplain.2, Bool.and_false]
  have hvalue := congrArg Prod.fst (resumeNested_value host (g := g) hs exc)
  simp only [State.resumeNested, hfn, Bool.false_eq_true, if_false] at hvalue
  have hframes := congrArg State.frames hvalue
  have hstack := congrArg State.stack hvalue
  simp only [State.resumeNested, hfn, hkind, Bool.false_eq_true, if_false, if_true]
  simp only at hframes hstack
  rw [hvalue, hframes, hstack]
  rfl

theorem resumeNested_throw (host : Host V P)
    (hs : Saves (s.func gen.program gen.fnIdx) gen saved)
    (hplain : (s.func gen.program gen.fnIdx).any Func.isAsyncFn = true) (exc : V) :
    s.resumeNested host g gen exc true =
      match s.covering gen.program gen.fnIdx saved.next with
      | some h =>
        ({ s.onTop g gen saved exc with
          frames := { resumedFrame s g gen saved with pc := h.target } :: s.frames
          stack := deliver (s.stack ++ restored saved exc) s.stack.length saved.registers.length
            h.stackDepth exc host.undefined }, none)
      | none => ({ s.onTop g gen saved exc with frames := s.frames, stack := s.stack }, some exc) := by
  have hcovering : (s.onTop g gen saved exc).covering gen.program gen.fnIdx saved.next =
      s.covering gen.program gen.fnIdx saved.next := rfl
  rw [resumeNested_eq_unwind host hs hplain exc]
  simp only [State.unwind, resumedFrame, hcovering]
  cases s.covering gen.program gen.fnIdx saved.next with
  | some h => rfl
  | none => simp [State.onTop]

/-- A frame for a generator is put on top. That of an async function is suspended before, so no
other frame runs it. -/
theorem Inv.push (h : Inv host s) {fn : Func} {registers : List V} (hgen : s.gens g = some gen)
    (hfn : s.func gen.program gen.fnIdx = some fn)
    (hidle : s.isAsync gen.program gen.fnIdx = true → s.suspended g ≠ none)
    (hno : g ∉ s.pendingAwaits.map Prod.fst) (hlength : registers.length = fn.maxRegs) (pc : Nat)
    (env : Option E) (arguments : Option V) :
    Inv host { s with
      stack := s.stack ++ registers
      frames :=
        { fnIdx := gen.fnIdx, program := gen.program, pc, base := s.stack.length
          maxRegs := fn.maxRegs, env, generator := some g, newTarget := none
          arguments } :: s.frames
      suspended := Function.update s.suspended g none } := by
  have hother : ∀ {g' saved'}, Function.update s.suspended g none g' = some saved' →
      s.suspended g' = some saved' := by
    intro g' saved' hsaved'
    have hne : g' ≠ g := by
      rintro rfl
      rw [Function.update_self] at hsaved'
      cases hsaved'
    rwa [Function.update_of_ne hne] at hsaved'
  refine { h with
    stacked := ?_, funcs := ?_, active := ?_, distinct := ?_, saved := ?_, awaits := ?_ }
  · refine ⟨?_, h.stacked⟩
    simp [hlength]
  · intro f hf
    rcases List.mem_cons.mp hf with rfl | hf
    · exact ⟨(h.gens g gen hgen).2.1, fn, hfn, rfl⟩
    · exact h.funcs f hf
  · intro f hf g' hg'
    rcases List.mem_cons.mp hf with rfl | hmem
    · obtain rfl := Option.some.inj hg'
      exact ⟨Function.update_self .., gen, hgen, rfl, rfl⟩
    · obtain ⟨hnone, hrest⟩ := h.active f hmem g' hg'
      by_cases hne : g' = g
      · subst hne
        exact ⟨Function.update_self .., hrest⟩
      · exact ⟨(Function.update_of_ne hne ..).trans hnone, hrest⟩
  · refine List.pairwise_cons.mpr ⟨fun f hf hasync g' hg' => ?_, h.distinct⟩
    obtain rfl := Option.some.inj hg'
    exact fun hg => hidle hasync (h.active f hf g hg).1
  · exact fun g' saved' hsaved' => h.saved g' saved' (hother hsaved')
  · intro g' val isReject hentry
    obtain ⟨saved', awaited, hsaved', hrest⟩ := h.awaits g' val isReject hentry
    have hne : g' ≠ g := by
      rintro rfl
      exact hno (List.mem_map_of_mem hentry)
    exact ⟨saved', awaited, (Function.update_of_ne hne ..).trans hsaved', hrest⟩

theorem Inv.resumeNested (h : Inv host s) (hgen : s.gens g = some gen)
    (hidle : s.isAsync gen.program gen.fnIdx = true → s.suspended g ≠ none)
    (hno : g ∉ s.pendingAwaits.map Prod.fst) (value : V) (isThrow : Bool) :
    Inv host (s.resumeNested host g gen value isThrow).1 := by
  obtain ⟨-, -, fn, hfn, -⟩ := h.gens g gen hgen
  let restored := resize gen.elements fn.maxRegs host.undefined
  have hlength : (if gen.pc ≠ 0 ∧ gen.dst < fn.maxRegs then restored.set gen.dst value
      else restored).length = fn.maxRegs := by
    split <;> simp [restored]
  have hpush := h.push hgen hfn hidle hno hlength gen.pc gen.env gen.arguments
  cases isThrow with
  | false =>
    simp only [State.resumeNested, hfn, Bool.false_eq_true, if_false]
    exact hpush
  | true =>
    obtain ⟨hkept, hstacked⟩ := unwind_kept host _ value (some s.frames.length) hpush.stacked
    have hkeep := hpush.keep hkept hstacked
    simp only [State.resumeNested, hfn, if_true]
    generalize State.unwind host _ value _ _ _ = unwound at hkeep ⊢
    obtain ⟨frames, stack, caught⟩ := unwound
    cases caught with
    | true => exact hkeep
    | false =>
      by_cases hkind : (fn.isAsync && fn.isGenerator) = true
      · simp only [hkind, if_true]
        exact hkeep.setGen (Function.update_self ..) hgen rfl rfl rfl
      · simp only [hkind]
        exact hkeep

theorem deliver_append (stack registers : List V) (depth : Nat) (exc undefined : V) :
    deliver (stack ++ registers) stack.length registers.length depth exc undefined =
      stack ++ deliver registers 0 registers.length depth exc undefined := by
  simp only [deliver, List.take_length_add_append, List.append_assoc, resize_append, Nat.zero_add]
  rw [List.set_append_right _ _ (Nat.le_add_right ..), Nat.add_sub_cancel_left]

theorem take_deliver (registers : List V) (depth : Nat) (exc undefined : V) :
    (deliver registers 0 registers.length depth exc undefined).take depth =
      registers.take depth := by
  refine List.ext_getElem? fun i => ?_
  simp only [List.getElem?_take]
  by_cases hi : i < depth
  · rw [if_pos hi, if_pos hi]
    simp only [deliver, Nat.zero_add]
    rw [List.getElem?_set_ne (by omega), resize]
    by_cases hlt : i < registers.length
    · rw [List.getElem?_append_left (by simp; omega), List.getElem?_take, if_pos hlt,
        List.getElem?_append_left (by simp; omega), List.getElem?_take, if_pos hi]
    · rw [List.getElem?_eq_none (by simp; omega), List.getElem?_eq_none (by omega)]
  · rw [if_neg hi, if_neg hi]

theorem deliver_set_eq_iff (registers : List V) (d depth : Nat) (v exc undefined : V) :
    deliver (registers.set d v) 0 registers.length depth exc undefined =
        deliver registers 0 registers.length depth exc undefined ↔
      (d < depth → ∀ old, registers[d]? = some old → old = v) := by
  have hlength : (registers.set d v).length = registers.length := List.length_set ..
  constructor
  · intro heq hlt old hold
    have htake := congrArg (List.take depth) heq
    have hset := take_deliver (registers.set d v) depth exc undefined
    rw [hlength] at hset
    rw [hset, take_deliver] at htake
    have hd := congrArg (fun l : List V => l[d]?) htake
    simp only [List.getElem?_take, if_pos hlt, hold] at hd
    rw [List.getElem?_set_self (List.getElem?_eq_some_iff.mp hold).1] at hd
    exact (Option.some.inj hd).symm
  · intro hsame
    have htake : (registers.set d v).take depth = registers.take depth := by
      refine List.ext_getElem? fun i => ?_
      simp only [List.getElem?_take]
      by_cases hi : i < depth
      · rw [if_pos hi, if_pos hi]
        by_cases hd : i = d
        · subst hd
          cases hold : registers[i]? with
          | none =>
            rw [List.getElem?_eq_none]
            rw [hlength]
            exact List.getElem?_eq_none_iff.mp hold
          | some old =>
            rw [List.getElem?_set_self (List.getElem?_eq_some_iff.mp hold).1, hsame hi old hold]
        · rw [List.getElem?_set_ne (Ne.symm hd)]
      · rw [if_neg hi, if_neg hi]
    simp only [deliver, Nat.zero_add, htake]

theorem continues_onTop (s : State V E P) (g : Nat) (gen : Gen V E) (saved : Suspended V E P)
    (value : V) : Continues s (s.onTop g gen saved value) g gen saved value := by
  refine ⟨resumedFrame s g gen saved, rfl, rfl, rfl, rfl, rfl, rfl, ?_⟩
  have hwindow := window_append_self s.stack (restored saved value)
  rw [length_restored] at hwindow
  exact hwindow

theorem isolated_resumeNested (h : Inv host s)
    (hs : Saves (s.func gen.program gen.fnIdx) gen saved)
    (hplain : (s.func gen.program gen.fnIdx).any Func.isAsyncFn = true) (value : V)
    (isThrow : Bool) : Isolated s (s.resumeNested host g gen value isThrow).1 s.frames g := by
  have hbelow : ∀ f ∈ s.frames, ∀ rest, window (s.stack ++ rest) f.base f.maxRegs =
      s.registers f := fun f hf rest => window_append (h.stacked.le hf) rest
  have hvalue : ∀ v, Isolated s (s.onTop g gen saved v) s.frames g := fun v =>
    ⟨fun f hf => hbelow f hf _, fun _ _ => rfl, rfl⟩
  cases isThrow with
  | false =>
    rw [resumeNested_value host hs]
    exact hvalue value
  | true =>
    rw [resumeNested_throw host hs hplain]
    cases s.covering gen.program gen.fnIdx saved.next with
    | some hd =>
      refine ⟨fun f hf => ?_, fun _ _ => rfl, rfl⟩
      have hdeliver := deliver_append s.stack (restored saved value) hd.stackDepth value
        host.undefined
      rw [length_restored] at hdeliver
      simp only [State.registers, hdeliver]
      exact hbelow f hf _
    | none => exact ⟨fun _ _ => rfl, fun _ _ => rfl, rfl⟩

theorem rejects_eq (s : State V E P) (g : Nat) (thrown : Option V) :
    ∃ settlements, s.rejects g thrown = { s with settlements } := by
  simp only [State.rejects]
  split
  · exact ⟨_, rfl⟩
  · exact ⟨_, rfl⟩

/-- What a resumption with an exception must meet: the handlers behind the await are those at
it, and a handler keeps no register that the exception was put into. -/
def ThrowMet (s : State V E P) (gen : Gen V E) (saved : Suspended V E P) (exc : V) : Prop :=
  s.covering gen.program gen.fnIdx saved.next = s.covering gen.program gen.fnIdx saved.pc ∧
  ∀ h, s.covering gen.program gen.fnIdx saved.pc = some h → ∀ d, saved.dst = some d →
    d < h.stackDepth → ∀ old, saved.registers[d]? = some old → old = exc

/-- **A throw** arrives at the await exactly when the condition is met. -/
theorem raises_resumeNested (host : Host V P) (hgen : s.gens g = some gen)
    (hs : Saves (s.func gen.program gen.fnIdx) gen saved)
    (hplain : (s.func gen.program gen.fnIdx).any Func.isAsyncFn = true)
    (hpromise : gen.promise.isSome) (exc : V) :
    Raises host s ((s.resumeNested host g gen exc true).1.rejects g
      (s.resumeNested host g gen exc true).2) g gen saved exc ↔
      ThrowMet s gen saved exc := by
  rw [resumeNested_throw host hs hplain]
  refine and_congr_right fun hsame => ?_
  rw [hsame]
  cases s.covering gen.program gen.fnIdx saved.pc with
  | none =>
    obtain ⟨promise, hpromise⟩ := Option.isSome_iff_exists.mp hpromise
    refine iff_of_true ?_ nofun
    simp [State.rejects, State.onTop, hgen, hpromise]
  | some hd =>
    let f : Frame V E := { resumedFrame s g gen saved with pc := hd.target }
    have hwindow : window (deliver (s.stack ++ restored saved exc) s.stack.length
        saved.registers.length hd.stackDepth exc host.undefined) s.stack.length
        saved.registers.length =
        deliver (restored saved exc) 0 saved.registers.length hd.stackDepth exc host.undefined := by
      have hdeliver := deliver_append s.stack (restored saved exc) hd.stackDepth exc host.undefined
      rw [length_restored] at hdeliver
      have htop := window_append_self s.stack
        (deliver (restored saved exc) 0 saved.registers.length hd.stackDepth exc host.undefined)
      rw [length_deliver, Nat.zero_add] at htop
      rw [hdeliver, htop]
    have hiff : deliver (restored saved exc) 0 saved.registers.length hd.stackDepth exc
        host.undefined = delivered host saved.registers hd.stackDepth exc ↔
        ∀ d, saved.dst = some d → d < hd.stackDepth → ∀ old, saved.registers[d]? = some old →
          old = exc := by
      cases hdst : saved.dst with
      | none => simp [restored, hdst, delivered]
      | some d =>
        simp only [restored, hdst, delivered, deliver_set_eq_iff, Option.some.injEq, forall_eq']
    simp only [Option.some.injEq, forall_eq']
    rw [← hiff]
    constructor
    · rintro ⟨f', hframes, -, -, -, -, -, hregs⟩
      obtain ⟨rfl, -⟩ := List.cons.inj hframes
      exact hwindow.symm.trans hregs
    · intro hregs
      exact ⟨f, rfl, rfl, rfl, rfl, rfl, rfl, hwindow.trans hregs⟩

/-! ## §5 Runs -/

theorem decodeParkedCall_width {instrs : List Instr} {pc dst : Nat} {isConstruct : Bool}
    (h : decodeParkedCall instrs pc = some (isConstruct, dst, width)) : 0 < width := by
  have hwide : ∀ {op : WideOp} {w : Nat}, WideOp.tryDecode (instrs.drop pc) = .ok (op, w) →
      0 < w := by
    intro op w hok
    obtain ⟨header, rest, hwords, -⟩ := WideOp.tryDecode_ok hok
    rw [hwords] at hok
    obtain ⟨-, hencode, -⟩ := WideOp.tryDecode_layout hok
    have hpos := WideOp.encode_length_pos op
    omega
  simp only [decodeParkedCall] at h
  split at h
  next => cases h
  next instr hinstr =>
    split at h
    next =>
      split at h
      next hok =>
        cases h
        exact hwide hok
      next hok =>
        cases h
        exact hwide hok
      next =>
        split at h
        next => cases h
        next =>
          cases h
          decide
      next => cases h
    next =>
      cases h
      decide

/-- What an await of an async function must meet, where its frame counts as one: there is no
frame below, or one that is parked on no call. -/
def DepositMet (s : State V E P) (f : Frame V E) (rest : List (Frame V E)) : Prop :=
  (s.func f.fnIdx f.fnIdx).any Func.isAsyncFn → ∀ caller, rest.head? = some caller →
    ∃ fn, s.functions[caller.fnIdx]? = some fn ∧
      decodeParkedCall fn.code.instrs caller.pc = none

/-- The state behind the `await`, its frame gone. -/
def State.parkedAwait (host : Host V P) (s : State V E P) (f : Frame V E) (rest : List (Frame V E))
    (g : Nat) (gen : Gen V E) (dst src width : Nat) (read : ThenRead V) : State V E P :=
  { s.suspend host f rest g gen dst width
      (some (awaitedOf host ((s.stack[f.base + src]?).getD host.undefined) read)) with
    pendingAwaits := s.pendingAwaits ++ [(g,
      (promiseResolveForAwait host s.promises
        ((s.stack[f.base + src]?).getD host.undefined) read).1,
      (promiseResolveForAwait host s.promises
        ((s.stack[f.base + src]?).getD host.undefined) read).2)] }

theorem awaitArm_of_caller (host : Host V P) (s : State V E P) {f : Frame V E}
    (caller : Frame V E) (below : List (Frame V E)) (g : Nat) (gen : Gen V E)
    (dst src width : Nat) (read : ThenRead V)
    (hasync : (s.func f.fnIdx f.fnIdx).any Func.isAsyncFn = true) :
    s.awaitArm host f (caller :: below) g gen dst src width read =
      match s.functions[caller.fnIdx]? with
      | none =>
        { s.parkedAwait host f (caller :: below) g gen dst src width read with panicked := true }
      | some fn =>
        (s.parkedAwait host f (caller :: below) g gen dst src width read).deposit host
          fn.code.instrs (gen.promise.getD host.undefined) := by
  simp only [State.awaitArm, hasync, if_true]
  rfl

/-- **The `Await` arm** leaves the other functions alone exactly when the condition is met. -/
theorem isolated_awaitArm (h : Inv host s) {f : Frame V E} (gen : Gen V E)
    (hframes : s.frames = f :: rest) (halive : s.panicked = false) (dst src width : Nat)
    (read : ThenRead V) :
    ((s.awaitArm host f rest g gen dst src width read).frames = rest ∧
      Isolated s (s.awaitArm host f rest g gen dst src width read) rest g) ↔
      DepositMet s f rest := by
  have hstacked := h.stacked
  rw [hframes] at hstacked
  let s' := s.parkedAwait host f rest g gen dst src width read
  have hisolated : s'.frames = rest ∧ Isolated s s' rest g := by
    refine ⟨rfl, fun f' hf' => window_take (hstacked.2.le hf'), fun g' hne => ?_, rfl⟩
    exact Function.update_of_ne hne ..
  have hplain : (s.func f.fnIdx f.fnIdx).any Func.isAsyncFn = false →
      s.awaitArm host f rest g gen dst src width read = s' := by
    intro hasync
    simp only [State.awaitArm, hasync, Bool.false_eq_true, if_false]
    rfl
  by_cases hasync : (s.func f.fnIdx f.fnIdx).any Func.isAsyncFn = true
  · cases rest with
    | nil =>
      have harm : s.awaitArm host f [] g gen dst src width read = s' := by
        simp only [State.awaitArm, hasync, if_true]
        rfl
      rw [harm]
      refine iff_of_true hisolated fun _ caller hcaller => ?_
      cases hcaller
    | cons caller below =>
      simp only [DepositMet, hasync, forall_const, List.head?_cons, Option.some.injEq, forall_eq']
      cases hfn : s.functions[caller.fnIdx]? with
      | none =>
        have harm : s.awaitArm host f (caller :: below) g gen dst src width read =
            { s' with panicked := true } := by
          rw [awaitArm_of_caller host s caller below g gen dst src width read hasync, hfn]
        rw [harm]
        refine iff_of_false ?_ ?_
        · rintro ⟨-, hiso⟩
          have hpanicked := hiso.panicked
          rw [halive] at hpanicked
          cases hpanicked
        · rintro ⟨fn, hfn', -⟩
          cases hfn'
      | some fn =>
        have harm : s.awaitArm host f (caller :: below) g gen dst src width read =
            s'.deposit host fn.code.instrs (gen.promise.getD host.undefined) := by
          rw [awaitArm_of_caller host s caller below g gen dst src width read hasync, hfn]
        rw [harm]
        cases hheader : decodeParkedCall fn.code.instrs caller.pc with
        | none =>
          have hdeposit : s'.deposit host fn.code.instrs (gen.promise.getD host.undefined) = s' := by
            simp only [State.deposit, s', State.parkedAwait, State.suspend, hheader]
          simp only [hdeposit]
          exact iff_of_true hisolated ⟨fn, rfl, hheader⟩
        | some d =>
          obtain ⟨isConstruct, cdst, cwidth⟩ := d
          have hwidth := decodeParkedCall_width hheader
          refine iff_of_false ?_ ?_
          · rintro ⟨hsame, -⟩
            simp only [State.deposit, s', State.parkedAwait, State.suspend, hheader] at hsame
            have hpc := congrArg Frame.pc (List.cons.inj hsame).1
            simp only at hpc
            omega
          · rintro ⟨fn', hfn', hnone⟩
            cases hfn'
            rw [hheader] at hnone
            cases hnone
  · rw [hplain (by simpa using hasync)]
    exact iff_of_true hisolated fun hyes => absurd hyes hasync

theorem Inv.awaitArm (h : Inv host s) {f : Frame V E} (hframes : s.frames = f :: rest)
    (hg : f.generator = some g) (hgen : s.gens g = some gen) (dst src : Nat) (hwidth : 0 < width)
    (hbody : (s.func f.program f.fnIdx).any Func.isAsync = true) (read : ThenRead V) :
    Inv host (s.awaitArm host f rest g gen dst src width read) := by
  have hmem : f ∈ s.frames := by
    rw [hframes]
    exact List.mem_cons_self ..
  have hnone := (h.active f hmem g hg).1
  let arg := (s.stack[f.base + src]?).getD host.undefined
  have hsuspend := h.suspend hframes hg hgen dst hwidth (some (awaitedOf host arg read))
  have hcarries := carries_promiseResolveForAwait h.plain arg read
  have hsaved : (s.suspend host f rest g gen dst width
      (some (awaitedOf host arg read))).suspended g = some
        { registers := s.registers f, env := f.env, pc := f.pc, next := f.pc + width
          dst := some dst, awaited := some (awaitedOf host arg read) } := by
    simp only [State.suspend, hbody, if_true, Function.update_self]
  have hpush := hsuspend.pushAwait hsaved rfl hcarries (h.notPending hnone)
  simp only [State.awaitArm]
  by_cases hasync : (s.func f.fnIdx f.fnIdx).any Func.isAsyncFn = true
  · simp only [hasync, if_true]
    cases rest with
    | nil => exact hpush
    | cons caller below =>
      cases hfn : s.functions[caller.fnIdx]? with
      | none =>
        simp only [State.suspend, hfn]
        exact { hpush with }
      | some fn =>
        simp only [State.suspend, hfn]
        exact hpush.deposit fn.code.instrs (gen.promise.getD host.undefined)
  · simp only [hasync]
    exact hpush

theorem Inv.addGen (h : Inv host s) (hknown : s.Known gen.program) {fn : Func}
    (hfn : s.func gen.program gen.fnIdx = some fn)
    (hpromise : fn.isGenerator = false → gen.promise.isSome) :
    Inv host { s with
      gens := Function.update s.gens s.count (some gen), count := s.count + 1 } := by
  have hkeep : ∀ {g old}, s.gens g = some old →
      Function.update s.gens s.count (some gen) g = some old := fun hold =>
    (Function.update_of_ne (Nat.ne_of_lt (h.gens _ _ hold).1) ..).trans hold
  refine { h with gens := ?_, active := ?_, saved := ?_ }
  · intro g old hold
    by_cases hne : g = s.count
    · subst hne
      have hold : Function.update s.gens s.count (some gen) s.count = some old := hold
      rw [Function.update_self] at hold
      cases hold
      exact ⟨Nat.lt_succ_self _, hknown, fn, hfn, hpromise⟩
    · obtain ⟨hlt, hrest⟩ := h.gens g old ((Function.update_of_ne hne ..).symm.trans hold)
      exact ⟨Nat.lt_succ_of_lt hlt, hrest⟩
  · intro f hf g hg
    obtain ⟨hnone, old, hold, hrest⟩ := h.active f hf g hg
    exact ⟨hnone, old, hkeep hold, hrest⟩
  · intro g saved hsaved
    obtain ⟨old, hold, hs⟩ := h.saved g saved hsaved
    exact ⟨old, hkeep hold, hs⟩

theorem Inv.create (h : Inv host s) (fnIdx program : Nat) (registers : List V) (env : Option E)
    (promise : V) (arguments : Option V) :
    Inv host (create host s fnIdx program registers env promise arguments) := by
  simp only [V12.Suspension.create]
  cases hfn : s.func program fnIdx with
  | none => exact h
  | some fn =>
    by_cases hguard : s.Known program ∧ registers.length = fn.maxRegs ∧
        (fn.isAsync || fn.isGenerator) = true
    · obtain ⟨hknown, hlength, hkind⟩ := hguard
      let gen : Gen V E :=
        { fnIdx, program, pc := 0, dst := 0, elements := registers, env, done := false
          promise := if fn.isGenerator then none else some promise, arguments }
      let saved : Suspended V E P :=
        { registers, env, pc := 0, next := 0, dst := none
          awaited := if fn.isGenerator then none else some (.value host.undefined) }
      have hadd : Inv host { s with
          gens := Function.update s.gens s.count (some gen), count := s.count + 1 } :=
        h.addGen hknown hfn fun hgenerator => by simp [gen, hgenerator]
      obtain ⟨hnone, hfree⟩ := h.unused
      simp only [hknown, hlength, hkind, and_self, if_true]
      by_cases hasync : fn.isAsync = true
      · have hsaves : Saves (s.func program fnIdx) gen saved := {
          elements := rfl, env := rfl, pc := rfl, dst := nofun, start := fun _ => rfl,
          func := ⟨fn, hfn, hasync, hlength⟩ }
        have hpark : Inv host { s with
            gens := Function.update s.gens s.count (some gen), count := s.count + 1
            suspended := Function.update s.suspended s.count (some saved) } :=
          hadd.park (Function.update_self ..) hsaves hnone hfree
        by_cases hgenerator : fn.isGenerator = true
        · simp only [gen, saved, hgenerator, if_true] at hpark
          simp only [hasync, hgenerator, if_true]
          exact hpark
        · have hawaited : saved.awaited = some (.value host.undefined) := by
            simp [saved, hgenerator]
          have hpush := hpark.pushAwait (Function.update_self ..) hawaited
            (carries_value host.asPromise_undefined) (h.notPending hnone)
          simp only [gen, saved, hgenerator] at hpush
          simp only [hasync, hgenerator, if_true]
          exact hpush
      · have hgenerator : fn.isGenerator = true := by
          simpa [hasync] using hkind
        simp only [gen, hgenerator, if_true] at hadd
        simp only [hasync, hgenerator, if_true]
        exact hadd
    · simp only [hguard, if_false]
      exact h

theorem Inv.resumeGenerator (h : Inv host s)
    (hidle : s.genIsAsync g = true → s.suspended g ≠ none)
    (hno : g ∉ s.pendingAwaits.map Prod.fst) (value : V) (isThrow : Bool) :
    Inv host (s.resumeGenerator host g value isThrow).1 := by
  simp only [State.resumeGenerator]
  by_cases hdeep : maxResumeDepth ≤ s.resumeDepth
  · simp only [hdeep, if_true]
    exact h
  · simp only [hdeep, if_false]
    cases hgen : s.gens g with
    | none => exact h
    | some gen =>
      simp only [State.genIsAsync, State.genFunc, hgen, Option.bind_some] at hidle
      exact h.resumeNested hgen hidle hno value isThrow

theorem Inv.rejects (h : Inv host s) (g : Nat) (thrown : Option V) :
    Inv host (s.rejects g thrown) := by
  obtain ⟨settlements, heq⟩ := rejects_eq s g thrown
  rw [heq]
  exact { h with }

theorem Inv.popAwait (h : Inv host s) {e : Nat × V × Bool} {rest : List (Nat × V × Bool)}
    (hlist : s.pendingAwaits = e :: rest) :
    Inv host { s with pendingAwaits := rest } ∧ e.1 ∉ rest.map Prod.fst := by
  have honce := h.once
  rw [hlist, List.map_cons, List.nodup_cons] at honce
  refine ⟨{ h with awaits := ?_, once := honce.2 }, honce.1⟩
  intro g val isReject hentry
  exact h.awaits g val isReject (by rw [hlist]; exact List.mem_cons_of_mem _ hentry)

theorem Inv.resumeNextAwait (h : Inv host s) :
    Inv host (s.resumeNextAwait host) := by
  simp only [State.resumeNextAwait]
  cases hlist : s.pendingAwaits with
  | nil => exact h
  | cons e rest =>
    obtain ⟨g, val, isReject⟩ := e
    obtain ⟨hpop, hno⟩ := h.popAwait hlist
    obtain ⟨saved, awaited, hsaved, hawaited, hcarries⟩ :=
      h.awaits g val isReject (by rw [hlist]; exact List.mem_cons_self ..)
    cases hresume : awaitResumeValue host s.promises val isReject with
    | skip =>
      simp only [hresume]
      exact hpop.pushAwait hsaved hawaited hcarries hno
    | adopt payload => exact absurd hresume (not_adopt h.plain val isReject payload)
    | run value reject =>
      simp only [hresume]
      have hidle : s.genIsAsync g = true → s.suspended g ≠ none := fun _ => by simp [hsaved]
      exact (hpop.resumeGenerator hidle hno value reject).rejects g _

theorem running_eq_some {f : Frame V E} : s.running = some (f, rest, g, gen) ↔
    s.frames = f :: rest ∧ f.generator = some g ∧ s.gens g = some gen := by
  cases hframes : s.frames with
  | nil => simp [State.running, hframes]
  | cons f' rest' =>
    simp only [State.running, hframes, Option.bind_eq_some_iff, Option.map_eq_some_iff,
      Prod.mk.injEq, List.cons.injEq]
    constructor
    · rintro ⟨_, hg, _, hgen, rfl, rfl, rfl, rfl⟩
      exact ⟨⟨rfl, rfl⟩, hg, hgen⟩
    · rintro ⟨⟨rfl, rfl⟩, hg, hgen⟩
      exact ⟨g, hg, gen, hgen, rfl, rfl, rfl, rfl⟩

theorem func_register (functions : List Func) {program : Nat} (hknown : s.Known program)
    (fnIdx : Nat) :
    ({ s with programs := s.programs ++ [functions] } : State V E P).func program fnIdx =
      s.func program fnIdx := by
  simp only [State.func, State.functionsForProgram]
  rcases hknown with rfl | hlt
  · rfl
  · rw [List.getElem?_append_left hlt]

theorem Inv.register (h : Inv host s) (functions : List Func) :
    Inv host { s with programs := s.programs ++ [functions] } := by
  have hknown : ∀ {program}, s.Known program →
      ({ s with programs := s.programs ++ [functions] } : State V E P).Known program := by
    rintro program (hzero | hlt)
    · exact .inl hzero
    · refine .inr ?_
      simp only [List.length_append, List.length_singleton]
      exact Nat.lt_succ_of_lt hlt
  refine { h with funcs := ?_, gens := ?_, distinct := ?_, saved := ?_ }
  · intro f hf
    obtain ⟨hprogram, fn, hfn, hregs⟩ := h.funcs f hf
    exact ⟨hknown hprogram, fn, (func_register functions hprogram _).trans hfn, hregs⟩
  · intro g gen hgen
    obtain ⟨hlt, hprogram, fn, hfn, hpromise⟩ := h.gens g gen hgen
    exact ⟨hlt, hknown hprogram, fn, (func_register functions hprogram _).trans hfn, hpromise⟩
  · refine h.distinct.imp_of_mem fun {f f'} hf _ hapart hasync => hapart ?_
    simpa only [State.isAsync, func_register functions (h.funcs f hf).1] using hasync
  · intro g saved hsaved
    obtain ⟨gen, hgen, hs⟩ := h.saved g saved hsaved
    refine ⟨gen, hgen, ?_⟩
    rw [func_register functions (h.gens g gen hgen).2.1]
    exact hs

theorem Inv.next (h : Inv host s) (value : V) (isThrow : Bool) :
    Inv host (next host s g value isThrow) := by
  simp only [V12.Suspension.next]
  cases hgen : s.gens g with
  | none => exact h
  | some gen =>
    by_cases hdone : (gen.done || s.genIsAsyncFn g) = true
    · simp only [hdone, if_true]
      exact h
    by_cases hbusy : (s.genIsAsync g && !(s.suspended g).any fun saved => saved.awaited.isNone) = true
    · simp only [hdone, hbusy, if_true]
      exact h
    -- An async generator is suspended at no await; another one is nowhere in the list of awaits.
    have hidle : s.genIsAsync g = true → ∃ saved, s.suspended g = some saved ∧
        saved.awaited = none := by
      intro hasync
      cases hsaved : s.suspended g with
      | none => simp [hasync, hsaved] at hbusy
      | some saved => exact ⟨saved, rfl, by simpa [hasync, hsaved] using hbusy⟩
    have hno : g ∉ s.pendingAwaits.map Prod.fst := by
      intro hmem
      obtain ⟨⟨g', val, isReject⟩, hentry, rfl⟩ := List.mem_map.mp hmem
      obtain ⟨saved, awaited, hsaved, hawaited, -⟩ := h.awaits g' val isReject hentry
      obtain ⟨gen', hgen', hs⟩ := h.saved g' saved hsaved
      obtain ⟨fn, hfn, hasync, -⟩ := hs.func
      obtain ⟨saved', hsaved', hnone⟩ :=
        hidle (by simp [State.genIsAsync, State.genFunc, hgen', hfn, hasync])
      rw [hsaved] at hsaved'
      cases hsaved'
      rw [hawaited] at hnone
      cases hnone
    simp only [hdone, hbusy]
    refine h.resumeGenerator (fun hasync => ?_) hno value isThrow
    obtain ⟨saved, hsaved, -⟩ := hidle hasync
    simp [hsaved]

/-- **One label** keeps the invariant. -/
theorem Inv.step [DecidableEq P] (h : Inv host s) (l : Label V E P) : Inv host (step host s l) := by
  rw [V12.Suspension.step]
  by_cases hpanicked : s.panicked = true
  · rw [if_pos hpanicked]
    exact h
  rw [if_neg hpanicked]
  cases l with
  | work registers pc env arguments => exact h.work registers pc env arguments
  | call fnIdx program base registers env newTarget arguments =>
    exact h.call fnIdx program base registers env newTarget arguments
  | returns result => exact h.returns result
  | leave result isError => exact h.leave result isError
  | throws exc stopAt =>
    obtain ⟨hkept, hstacked⟩ := unwind_kept host s exc stopAt h.stacked
    exact (h.keep hkept hstacked).finishAll exc fun f hf g hg =>
      (h.active f (List.mem_of_mem_take hf) g hg).1
  | create fnIdx program registers env promise arguments =>
    exact h.create fnIdx program registers env promise arguments
  | await dst src width read =>
    simp only [act, await]
    cases hrunning : s.running with
    | none => exact h
    | some r =>
      obtain ⟨f, rest, g, gen⟩ := r
      obtain ⟨hframes, hg, hgen⟩ := running_eq_some.mp hrunning
      simp only
      by_cases hguard : 0 < width ∧ (s.func f.program f.fnIdx).any Func.isAsync = true ∧
          read.fresh host s.promises = true
      · rw [if_pos hguard]
        exact h.awaitArm hframes hg hgen dst src hguard.1 hguard.2.1 read
      · rw [if_neg hguard]
        exact h
  | yields dst width =>
    simp only [act, yields]
    cases hrunning : s.running with
    | none => exact h
    | some r =>
      obtain ⟨f, rest, g, gen⟩ := r
      obtain ⟨hframes, hg, hgen⟩ := running_eq_some.mp hrunning
      simp only
      by_cases hguard : 0 < width ∧ ¬ (s.func f.program f.fnIdx).any Func.isAsyncFn = true
      · rw [if_pos hguard]
        exact h.suspend hframes hg hgen dst hguard.1 none
      · rw [if_neg hguard]
        exact h
  | next g value isThrow => exact h.next value isThrow
  | settle p outcome =>
    simp only [act]
    cases hp : s.promises p with
    | fulfilled v => exact h
    | rejected e => exact h
    | pending =>
      by_cases hplain : Plain host outcome = true
      · simp only [hplain, if_true]
        refine { h with awaits := ?_, plain := ?_ }
        · intro g val isReject hentry
          obtain ⟨saved, awaited, hsaved, hawaited, hcarries⟩ := h.awaits g val isReject hentry
          exact ⟨saved, awaited, hsaved, hawaited, hcarries.mono hp⟩
        · intro q
          by_cases hq : q = p
          · subst hq
            simpa only [Function.update_self] using hplain
          · simpa only [Function.update_of_ne hq] using h.plain q
      · simp only [hplain]
        exact h
  | resumeNext => exact h.resumeNextAwait
  | register functions => exact h.register functions
  | depth n => exact { h with }

theorem inv_start (host : Host V P) (functions : List Func) (programs : List (List Func)) :
    Inv host (State.start functions programs : State V E P) where
  stacked := trivial
  funcs := nofun
  gens _ _ h := nomatch h
  active := nofun
  distinct := List.Pairwise.nil
  saved _ _ h := nomatch h
  awaits _ _ _ h := nomatch h
  once := List.nodup_nil
  plain _ := rfl

/-- What a label must meet. An await of an async function: below its frame is none that is
parked on a call. A resumption of one: not nested too deep, and an exception finds
behind the await the handlers of the await. -/
def Met (host : Host V P) (s : State V E P) (l : Label V E P) : Prop :=
  s.panicked = false →
  match l with
  | .await _ _ width read => ∀ f rest g, s.frames = f :: rest → f.generator = some g →
    s.genIsAsyncFn g → 0 < width → read.fresh host s.promises → DepositMet s f rest
  | .resumeNext => ∀ g val isReject rest value reject,
    s.pendingAwaits = (g, val, isReject) :: rest →
    awaitResumeValue host s.promises val isReject = .run value reject → s.genIsAsyncFn g →
    s.resumeDepth < maxResumeDepth ∧ (reject = true → ∀ gen saved, s.gens g = some gen →
      s.suspended g = some saved → ThrowMet s gen saved value)
  | _ => True

/-- **Resuming** restores the function and leaves the others alone exactly when it is not nested
too deep and an exception meets its condition. -/
theorem restored_iff (h : Inv host s) {value : V} {reject : Bool} {rest : List (Nat × V × Bool)}
    (hlist : s.pendingAwaits = (g, val, isReject) :: rest)
    (hrun : awaitResumeValue host s.promises val isReject = .run value reject)
    (hasync : s.genIsAsyncFn g = true) :
    Restored host s (s.resumeNextAwait host) g value reject ↔
      s.resumeDepth < maxResumeDepth ∧ (reject = true → ∀ gen saved, s.gens g = some gen →
        s.suspended g = some saved → ThrowMet s gen saved value) := by
  obtain ⟨saved, awaited, hsaved, hawaited, hcarries⟩ :=
    h.awaits g val isReject (by rw [hlist]; exact List.mem_cons_self ..)
  obtain ⟨gen, hgen, hs⟩ := h.saved g saved hsaved
  have hplain : (s.func gen.program gen.fnIdx).any Func.isAsyncFn = true := by
    simpa only [State.genIsAsyncFn, State.genFunc, hgen, Option.bind_some] using hasync
  have hpromise : gen.promise.isSome := by
    obtain ⟨-, -, fn, hfn, hpromise⟩ := h.gens g gen hgen
    simp only [hfn, Option.any_some, Func.isAsyncFn, Bool.and_eq_true, Bool.not_eq_true'] at hplain
    exact hpromise hplain.2
  have hpop := (h.popAwait hlist).1
  have hsettled := hcarries.settlement_eq hrun
  let s₀ : State V E P := { s with pendingAwaits := rest }
  let resumed := s₀.resumeGenerator host g value reject
  have hstep : s.resumeNextAwait host = resumed.1.rejects g resumed.2 := by
    simp only [State.resumeNextAwait, hlist, hrun, resumed, s₀]
  rw [hstep]
  by_cases hdeep : maxResumeDepth ≤ s.resumeDepth
  · -- The entry is gone and nothing was resumed.
    have hresume : resumed = (s₀, some host.rangeError) := by
      simp only [resumed, State.resumeGenerator, s₀, hdeep, if_true]
    obtain ⟨settlements, heq⟩ := rejects_eq s₀ g (some host.rangeError)
    rw [hresume, heq]
    refine iff_of_false ?_ fun hmet => Nat.not_lt.mpr hdeep hmet.1
    rintro ⟨⟨gen', saved', awaited', hgen', hsaved', -, -, hresumed⟩, -⟩
    rw [hgen] at hgen'
    rw [hsaved] at hsaved'
    cases hgen'
    cases hsaved'
    have hlength : ∀ {pc : Nat} {registers : List V},
        ¬ OnTop s { s₀ with settlements } g gen saved pc registers := by
      rintro pc registers ⟨f, hframes, -⟩
      have hcount := congrArg List.length hframes
      simp [s₀] at hcount
    cases reject with
    | false => exact hlength hresumed
    | true =>
      simp only [if_true] at hresumed
      obtain ⟨-, hresumed⟩ := hresumed
      cases hcovering : s.covering gen.program gen.fnIdx saved.pc with
      | some hd =>
        simp only [hcovering] at hresumed
        exact hlength hresumed
      | none =>
        simp only [hcovering] at hresumed
        have hgone : s.suspended g = none := hresumed.2.1
        rw [hsaved] at hgone
        cases hgone
  · have hlt := Nat.not_le.mp hdeep
    have hresume : resumed = s₀.resumeNested host g gen value reject := by
      simp only [resumed, State.resumeGenerator, s₀, hdeep, if_false, hgen]
    rw [hresume]
    have hiso : Isolated s ((s₀.resumeNested host g gen value reject).1.rejects g
        (s₀.resumeNested host g gen value reject).2) s.frames g := by
      have hiso₀ := isolated_resumeNested (g := g) hpop hs hplain value reject
      obtain ⟨settlements, heq⟩ := rejects_eq (s₀.resumeNested host g gen value reject).1 g
        (s₀.resumeNested host g gen value reject).2
      rw [heq]
      exact ⟨hiso₀.registers, hiso₀.gens, hiso₀.panicked⟩
    cases reject with
    | false =>
      refine iff_of_true ⟨⟨gen, saved, awaited, hgen, hsaved, hawaited, hsettled, ?_⟩, hiso⟩
        ⟨hlt, nofun⟩
      have hcontinues := continues_onTop s₀ g gen saved value
      rw [resumeNested_value (s := s₀) host hs]
      exact hcontinues
    | true =>
      have hraises : Raises host s ((s₀.resumeNested host g gen value true).1.rejects g
          (s₀.resumeNested host g gen value true).2) g gen saved value ↔
          ThrowMet s gen saved value :=
        raises_resumeNested (s := s₀) host hgen hs hplain hpromise value
      constructor
      · rintro ⟨⟨gen', saved', awaited', hgen', hsaved', -, -, hresumed⟩, -⟩
        rw [hgen] at hgen'
        rw [hsaved] at hsaved'
        cases hgen'
        cases hsaved'
        refine ⟨hlt, fun _ gen' saved' hgen' hsaved' => ?_⟩
        rw [hgen] at hgen'
        rw [hsaved] at hsaved'
        cases hgen'
        cases hsaved'
        exact hraises.mp hresumed
      · rintro ⟨-, hthrow⟩
        exact ⟨⟨gen, saved, awaited, hgen, hsaved, hawaited, hsettled,
          hraises.mpr (hthrow rfl gen saved hgen hsaved)⟩, hiso⟩

/-- **One label** does what it should exactly when it meets the condition. -/
theorem step_good_iff [DecidableEq P] (h : Inv host s) (l : Label V E P) :
    Good host s l ↔ Met host s l := by
  refine forall_congr' fun halive => ?_
  cases l with
  | await dst src width read =>
    refine forall_congr' fun f => forall_congr' fun rest => forall_congr' fun g =>
      forall_congr' fun hframes => forall_congr' fun hg => forall_congr' fun hasync =>
      forall_congr' fun hwidth => forall_congr' fun hfresh => ?_
    obtain ⟨-, gen, hgen, hidx, hprogram⟩ :=
      h.active f (by rw [hframes]; exact List.mem_cons_self ..) g hg
    have hbody : (s.func f.program f.fnIdx).any Func.isAsync = true := by
      simp only [State.genIsAsyncFn, State.genFunc, hgen, Option.bind_some, hidx, hprogram] at hasync
      cases hfn : s.func f.program f.fnIdx with
      | none => simp [hfn] at hasync
      | some fn =>
        simp only [hfn, Option.any_some, Func.isAsyncFn, Bool.and_eq_true] at hasync
        simpa using hasync.1
    have hstep : step host s (.await dst src width read) =
        s.awaitArm host f rest g gen dst src width read := by
      simp [step, act, await, running_eq_some.mpr ⟨hframes, hg, hgen⟩, halive, hwidth, hfresh, hbody]
    rw [hstep]
    exact isolated_awaitArm h gen hframes halive dst src width read
  | resumeNext =>
    refine forall_congr' fun g => forall_congr' fun val => forall_congr' fun isReject =>
      forall_congr' fun rest => forall_congr' fun value => forall_congr' fun reject =>
      forall_congr' fun hlist => forall_congr' fun hrun => forall_congr' fun hasync => ?_
    have hstep : step host s .resumeNext = s.resumeNextAwait host := by
      simp [step, act, halive]
    rw [hstep]
    exact restored_iff h hlist hrun hasync
  | _ => exact Iff.rfl

/-- **When resuming restores**: in a run, every resumption of an async function restores it as it
was, with the settlement of what it awaited, and every await and resumption leaves the
other functions alone, exactly when no async function that counts as one suspends above a
frame parked on a call, none is resumed nested too deep, and each exception finds behind
its await the handlers of the await, which keep no register it was put into. -/
theorem resume_iff [DecidableEq P] (host : Host V P) (functions : List Func)
    (programs : List (List Func)) (labels : List (Label V E P)) :
    StepsMeet (step host) (Good host) (State.start functions programs) labels ↔
      StepsMeet (step host) (Met host) (State.start functions programs) labels := by
  have hrun : ∀ s : State V E P, Inv host s →
      (StepsMeet (step host) (Good host) s labels ↔ StepsMeet (step host) (Met host) s labels) := by
    induction labels with
    | nil => intro s _; exact Iff.rfl
    | cons l labels ih =>
      intro s h
      simp only [StepsMeet]
      rw [step_good_iff h l]
      exact and_congr_right fun _ => ih (step host s l) (h.step l)
  exact hrun _ (inv_start host functions programs)

def demoHost : Host Nat Nat where
  undefined := 0
  rangeError := 1
  asPromise v := if v < 100 then none else some (v - 100)
  asPromise_undefined := rfl

/-- `async function f(p) { try { await p; } catch (e) { … } }`: the await is the last instruction
of its range. -/
def demoFunc : Func where
  code :=
    { maxRegs := 3, instrs := [], consts := [], handlers := [⟨0, 1, 2, 1⟩], spans := [] }
  isAsync := true
  isGenerator := false

/-- The rejection of `p` does not reach the handler of the await. -/
theorem not_resume :
    ¬ ∀ (host : Host Nat Nat) (functions : List Func) (programs : List (List Func))
      (labels : List (Label Nat Unit Nat)),
      StepsMeet (step host) (Good host) (State.start functions programs) labels := by
  intro h
  have hrun := h demoHost [demoFunc] []
    [.create 0 0 [0, 101, 0] none 100 none, .resumeNext, .settle 1 (.rejected 7),
      .await 2 1 1 .notThenable, .resumeNext]
  have hrestored := hrun.2.2.2.2.1 rfl 0 7 true [] 7 true rfl rfl rfl
  obtain ⟨gen, saved, awaited, hgen, hsaved, -, -, hraises⟩ := hrestored.resumed
  have hgen' := Option.some.inj hgen
  have hsaved' := Option.some.inj hsaved
  subst hgen'
  subst hsaved'
  have hcovering := hraises.1
  revert hcovering
  decide

end V12.Suspension
