/-
V12.Interp.ArgumentsLookup — which object a reference to `arguments`
denotes (`v12-interp/src/lib.rs`, `v12-interp/src/globals.rs`).

The code looks for the nearest frame that carries an object; ECMAScript
gives a closure the binding of the activation it was created in.
-/
import V12.Bccompiler.ArgumentsPlan
import V12.Lib.Run

namespace V12.Interp

open Bccompiler

variable {V : Type}

/-! ## §1 Frames, closures and activations -/

/-- What `arguments` is bound to: the object made for an activation, or a value assigned. -/
inductive ArgumentsValue (V : Type) where
  | object (activation : Nat) (actuals : List V)
  | assigned (v : V)
  deriving DecidableEq

/-- A frame: its function, its `arguments` slot, the activation it runs, and the activation
whose `arguments` its code refers to (none outside every function that is no arrow). -/
structure CallFrame (V : Type) where
  fnIdx : Nat
  arguments : Option (ArgumentsValue V)
  activation : Nat
  home : Option Nat

/-- A function object, with the home of the frame that created it. -/
structure Closure where
  fnIdx : Nat
  home : Option Nat

/-- An activation's binding of `arguments`, which outlives its frame. -/
structure ActivationRecord (V : Type) where
  fnIdx : Nat
  arguments : ArgumentsValue V

/-- The frames, innermost first, the closures, and the record of every activation so far. -/
structure ArgumentsState (V : Type) where
  frames : List (CallFrame V)
  closures : List Closure
  records : List (ActivationRecord V)

/-- Creating a closure of a nested function, calling one, leaving a frame by return or throw,
and the two kinds of reference. -/
inductive ArgumentsEvent (V : Type) where
  | closure (fnIdx : Nat)
  | call (closure : Nat) (actuals : List V)
  | leave
  | read
  | write (v : V)

/-- `frame_arguments_value`, with the activation of the frame it found. -/
def frameArguments (frames : List (CallFrame V)) : Option (Nat × ArgumentsValue V) :=
  frames.findSome? fun f => f.arguments.map fun v => (f.activation, v)

/-- The loop of `set_frame_arguments`. -/
def setNearest (v : ArgumentsValue V) : List (CallFrame V) → Option (List (CallFrame V))
  | [] => none
  | f :: rest =>
    if f.arguments.isSome then some ({ f with arguments := some v } :: rest)
    else (setNearest v rest).map fun rest => f :: rest

/-- `set_frame_arguments`. -/
def setFrameArguments (frames : List (CallFrame V)) (v : ArgumentsValue V) : List (CallFrame V) :=
  match setNearest v frames, frames with
  | some frames, _ => frames
  | none, f :: rest => { f with arguments := some v } :: rest
  | none, [] => []

/-- The `arguments` arm of `op_set_global`; without a slot the global is written. -/
def opSetArguments (frames : List (CallFrame V)) (v : ArgumentsValue V) : List (CallFrame V) :=
  if (frameArguments frames).isSome then setFrameArguments frames v else frames

namespace ArgumentsState

variable {frames : List (CallFrame V)} {t : UnitTree} {records : List (ActivationRecord V)}
  {s : ArgumentsState V}

def lexicalArguments (s : ArgumentsState V) : Option (Nat × ArgumentsValue V) :=
  (s.frames.head?.bind CallFrame.home).bind fun a => s.records[a]?.map fun r => (a, r.arguments)

def assignLexical (s : ArgumentsState V) (v : V) : List (ActivationRecord V) :=
  match s.frames.head?.bind CallFrame.home with
  | none => s.records
  | some a => s.records.modify a fun r => { r with arguments := .assigned v }

/-- The running code has a reference to `arguments`. -/
def refers (t : UnitTree) (s : ArgumentsState V) : Bool :=
  s.frames.head?.any fun f => t.refers f.fnIdx

/-- A closure of a function nested in the running one; an arrow keeps the home. -/
def makeClosure (t : UnitTree) (s : ArgumentsState V) (fnIdx : Nat) : ArgumentsState V :=
  match s.frames with
  | [] => s
  | f :: _ =>
    if fnIdx ≠ 0 ∧ t.parent fnIdx = f.fnIdx then
      { s with closures := s.closures ++ [⟨fnIdx, if t.isArrow fnIdx then f.home else none⟩] }
    else s

/-- A call pushes a frame; `frame_arguments_for` fills its slot. -/
def call (t : UnitTree) (s : ArgumentsState V) (closure : Nat) (actuals : List V) :
    ArgumentsState V :=
  match s.closures[closure]? with
  | none => s
  | some c =>
    let activation := s.records.length
    let frame :=
      { fnIdx := c.fnIdx
        arguments := if t.needsArguments c.fnIdx then some (.object activation actuals) else none
        activation
        home := if t.isArrow c.fnIdx then c.home else some activation }
    { s with
      frames := frame :: s.frames
      records := s.records ++ [⟨c.fnIdx, .object activation actuals⟩] }

/-- An assignment, by the code to its frames and by the language to the lexical binding. -/
def write (t : UnitTree) (s : ArgumentsState V) (v : V) : ArgumentsState V :=
  if s.refers t then
    { s with frames := opSetArguments s.frames (.assigned v), records := s.assignLexical v }
  else s

def step (t : UnitTree) (s : ArgumentsState V) : ArgumentsEvent V → ArgumentsState V
  | .closure fnIdx => s.makeClosure t fnIdx
  | .call closure actuals => s.call t closure actuals
  | .leave => { s with frames := s.frames.tail }
  | .read => s
  | .write v => s.write t v

/-- The main function's activation, which has no `arguments`. -/
def start : ArgumentsState V := ⟨[⟨0, none, 0, none⟩], [], [⟨0, .object 0 []⟩]⟩

/-- A reference finds the lexical binding, or the global where there is none. -/
def Denotes (t : UnitTree) (s : ArgumentsState V) : ArgumentsEvent V → Prop
  | .read | .write _ => s.refers t → frameArguments s.frames = s.lexicalArguments
  | _ => True

/-- The home activation is on the stack with no function above it that has an object of its
own; outside every function, none on the stack has. -/
def InReach (t : UnitTree) (frames : List (CallFrame V)) : Option Nat → Prop
  | some a => ∃ above f below, frames = above ++ f :: below ∧ f.activation = a ∧
      ∀ g ∈ above, t.needsArguments g.fnIdx = false
  | none => ∀ g ∈ frames, t.needsArguments g.fnIdx = false

/-- Where a reference is evaluated, its home activation is in reach. -/
def Reaches (t : UnitTree) (s : ArgumentsState V) : ArgumentsEvent V → Prop
  | .read | .write _ => s.refers t → InReach t s.frames (s.frames.head?.bind CallFrame.home)
  | _ => True

/-! ## §2 The invariant -/

/-- A home is an activation of the function that owns the references of `fnIdx`. -/
def HomeOf (t : UnitTree) (records : List (ActivationRecord V)) (fnIdx : Nat) (home : Option Nat) :
    Prop :=
  match home with
  | some a => ∃ r, records[a]? = some r ∧ r.fnIdx = t.ownerOf fnIdx ∧ t.ownerOf fnIdx ≠ 0
  | none => t.ownerOf fnIdx = 0

/-- A frame on the stack against the records. -/
structure FrameOk (t : UnitTree) (records : List (ActivationRecord V)) (f : CallFrame V) :
    Prop where
  carries : f.arguments.isSome = t.needsArguments f.fnIdx
  record : ∃ r, records[f.activation]? = some r ∧ r.fnIdx = f.fnIdx ∧
    ∀ v, f.arguments = some v → r.arguments = v
  home : HomeOf t records f.fnIdx f.home

/-- A closure against the records: of a function, and an arrow with its home. -/
structure ClosureOk (t : UnitTree) (records : List (ActivationRecord V)) (c : Closure) : Prop where
  function : c.fnIdx ≠ 0
  home : t.isArrow c.fnIdx → HomeOf t records c.fnIdx c.home

/-- Each activation has one frame at most. -/
structure Inv (t : UnitTree) (s : ArgumentsState V) : Prop where
  frames : ∀ f ∈ s.frames, FrameOk t s.records f
  distinct : (s.frames.map CallFrame.activation).Nodup
  closures : ∀ c ∈ s.closures, ClosureOk t s.records c

theorem inv_start (t : UnitTree) : (start : ArgumentsState V).Inv t where
  frames f hf := by
    rcases List.mem_singleton.mp hf with rfl
    exact ⟨rfl, ⟨_, rfl, rfl, fun v hv => by cases hv⟩,
      t.ownerOf_of_not_isArrow t.main_not_arrow⟩
  distinct := by simp [start]
  closures c hc := by cases hc

/-! ## §3 What a reference finds -/

theorem frameArguments_eq_none :
    frameArguments frames = none ↔ ∀ f ∈ frames, f.arguments = none := by
  simp [frameArguments]

theorem frameArguments_eq_some {a : Nat} {v : ArgumentsValue V} :
    frameArguments frames = some (a, v) ↔
      ∃ above f below, frames = above ++ f :: below ∧ f.activation = a ∧ f.arguments = some v ∧
        ∀ g ∈ above, g.arguments = none := by
  simp only [frameArguments, List.findSome?_eq_some_iff, Option.map_eq_some_iff,
    Option.map_eq_none_iff]
  constructor
  · rintro ⟨above, f, below, heq, ⟨w, hw, hpair⟩, habove⟩
    cases hpair
    exact ⟨above, f, below, heq, rfl, hw, habove⟩
  · rintro ⟨above, f, below, heq, rfl, hv, habove⟩
    exact ⟨above, f, below, heq, ⟨v, hv, rfl⟩, habove⟩

theorem FrameOk.arguments_eq_none {f : CallFrame V} (h : FrameOk t records f) :
    f.arguments = none ↔ t.needsArguments f.fnIdx = false := by
  rw [← h.carries, Option.isSome_eq_false_iff, Option.isNone_iff_eq_none]

theorem exists_top_of_refers (h : s.refers t) :
    ∃ top rest, s.frames = top :: rest ∧ t.refers top.fnIdx := by
  unfold refers at h
  cases hframes : s.frames with
  | nil =>
    rw [hframes] at h
    cases h
  | cons top rest =>
    rw [hframes] at h
    exact ⟨top, rest, rfl, h⟩

/-- **A reference**: the nearest slot is the lexical binding exactly when the home is in
reach. -/
theorem shared_denotes_iff (t : UnitTree) {s : ArgumentsState V} (h : s.Inv t) (hrefers : s.refers t) :
    frameArguments s.frames = s.lexicalArguments ↔
      InReach t s.frames (s.frames.head?.bind CallFrame.home) := by
  obtain ⟨top, rest, hframes, htop⟩ := exists_top_of_refers hrefers
  have htopOk := h.frames top (by simp [hframes])
  have hhome : s.frames.head?.bind CallFrame.home = top.home := by simp [hframes]
  unfold lexicalArguments
  rw [hhome]
  cases hcase : top.home with
  | none =>
    simp only [Option.bind_none, InReach, frameArguments_eq_none]
    constructor
    · intro hnone g hg
      exact (h.frames g hg).arguments_eq_none.mp (hnone g hg)
    · intro hneeds g hg
      exact (h.frames g hg).arguments_eq_none.mpr (hneeds g hg)
  | some a =>
    have hrecord := htopOk.home
    rw [hcase] at hrecord
    obtain ⟨r, hr, hunit, howner⟩ := hrecord
    simp only [Option.bind_some, hr, Option.map_some, InReach, frameArguments_eq_some]
    constructor
    · rintro ⟨above, f, below, heq, hact, -, habove⟩
      refine ⟨above, f, below, heq, hact, fun g hg => ?_⟩
      exact (h.frames g (by simp [heq, hg])).arguments_eq_none.mp (habove g hg)
    · rintro ⟨above, f, below, heq, hact, habove⟩
      have hf := h.frames f (by simp [heq])
      obtain ⟨r', hr', hfn, hvalue⟩ := hf.record
      rw [hact, hr] at hr'
      cases hr'
      -- the home's function owns the reference, so it was marked
      have hneeds : t.needsArguments f.fnIdx := by
        rw [← hfn, hunit]
        exact t.needsArguments_ownerOf htop howner
      obtain ⟨v, hv⟩ := Option.isSome_iff_exists.mp (hf.carries.trans hneeds)
      refine ⟨above, f, below, heq, hact, ?_, fun g hg => ?_⟩
      · rw [hv, hvalue v hv]
      · exact (h.frames g (by simp [heq, hg])).arguments_eq_none.mpr (habove g hg)

/-! ## §4 Steps -/

theorem HomeOf.append {fnIdx : Nat} {home : Option Nat} (h : HomeOf t records fnIdx home)
    (more : List (ActivationRecord V)) :
    HomeOf t (records ++ more) fnIdx home := by
  cases home with
  | none => exact h
  | some a =>
    obtain ⟨r, hr, hrest⟩ := h
    refine ⟨r, ?_, hrest⟩
    rw [List.getElem?_append_left (List.getElem?_eq_some_iff.mp hr).1, hr]

theorem FrameOk.append {f : CallFrame V} (h : FrameOk t records f)
    (more : List (ActivationRecord V)) :
    FrameOk t (records ++ more) f where
  carries := h.carries
  record := by
    obtain ⟨r, hr, hrest⟩ := h.record
    refine ⟨r, ?_, hrest⟩
    rw [List.getElem?_append_left (List.getElem?_eq_some_iff.mp hr).1, hr]
  home := h.home.append more

theorem FrameOk.lt {f : CallFrame V} (h : FrameOk t records f) : f.activation < records.length := by
  obtain ⟨r, hr, -⟩ := h.record
  exact (List.getElem?_eq_some_iff.mp hr).1

theorem Inv.makeClosure (h : s.Inv t) (fnIdx : Nat) :
    (s.makeClosure t fnIdx).Inv t := by
  obtain ⟨frames, closures, records⟩ := s
  unfold ArgumentsState.makeClosure
  cases frames with
  | nil => exact h
  | cons f rest =>
    simp only
    split
    · rename_i hchild
      refine ⟨h.frames, h.distinct, fun c hc => ?_⟩
      rcases List.mem_append.mp hc with hc | hc
      · exact h.closures c hc
      · rcases List.mem_singleton.mp hc with rfl
        refine ⟨hchild.1, fun harrow => ?_⟩
        have hf := (h.frames f (by simp)).home
        have howner : t.ownerOf fnIdx = t.ownerOf f.fnIdx := by
          rw [t.ownerOf_of_isArrow harrow, hchild.2]
        simp only [harrow, if_true]
        simpa only [HomeOf, howner] using hf
    · exact h

theorem Inv.call (h : s.Inv t) (closure : Nat) (actuals : List V) :
    (s.call t closure actuals).Inv t := by
  unfold ArgumentsState.call
  cases hclosure : s.closures[closure]? with
  | none => exact h
  | some c =>
    have hc := h.closures c (List.mem_of_getElem? hclosure)
    have hlast : ∀ r : ActivationRecord V, (s.records ++ [r])[s.records.length]? = some r := by
      intro r
      simp
    refine ⟨fun f hf => ?_, ?_, fun c' hc' => ?_⟩
    · rcases List.mem_cons.mp hf with rfl | hf
      · refine ⟨?_, ⟨_, hlast _, rfl, fun v hv => ?_⟩, ?_⟩
        · cases t.needsArguments c.fnIdx <;> simp
        · simp only at hv
          split at hv
          · exact Option.some.inj hv
          · cases hv
        · cases harrow : t.isArrow c.fnIdx with
          | true =>
            simp only [if_true]
            exact (hc.home harrow).append _
          | false =>
            have howner := t.ownerOf_of_not_isArrow harrow
            simp only [Bool.false_eq_true, if_false]
            refine ⟨_, hlast _, ?_, ?_⟩
            · rw [howner]
            · rw [howner]
              exact hc.function
      · exact (h.frames f hf).append _
    · simp only [List.map_cons, List.nodup_cons]
      refine ⟨fun hmem => ?_, h.distinct⟩
      obtain ⟨f, hf, heq⟩ := List.mem_map.mp hmem
      have hlt := (h.frames f hf).lt
      omega
    · exact ⟨(h.closures c' hc').function, fun harrow => ((h.closures c' hc').home harrow).append _⟩

theorem Inv.leave (h : s.Inv t) :
    ({ s with frames := s.frames.tail } : ArgumentsState V).Inv t where
  frames f hf := h.frames f (List.mem_of_mem_tail hf)
  distinct := by
    have hsub : (s.frames.tail.map CallFrame.activation).Sublist
        (s.frames.map CallFrame.activation) := (List.tail_sublist _).map _
    exact h.distinct.sublist hsub
  closures := h.closures

theorem setNearest_append {above below : List (CallFrame V)} {f : CallFrame V}
    (habove : ∀ g ∈ above, g.arguments = none) (hf : f.arguments.isSome) (v : ArgumentsValue V) :
    setNearest v (above ++ f :: below) = some (above ++ { f with arguments := some v } :: below) := by
  induction above with
  | nil => simp [setNearest, hf]
  | cons g above ih =>
    have hg : g.arguments = none := habove g (by simp)
    have hrest := ih fun g' hg' => habove g' (by simp [hg'])
    simp [setNearest, hg, hrest]

theorem opSetArguments_of_none (h : frameArguments frames = none) (v : ArgumentsValue V) :
    opSetArguments frames v = frames := by
  simp [opSetArguments, h]

theorem opSetArguments_append {above below : List (CallFrame V)} {f : CallFrame V}
    (habove : ∀ g ∈ above, g.arguments = none) (hf : f.arguments.isSome) (v : ArgumentsValue V) :
    opSetArguments (above ++ f :: below) v = above ++ { f with arguments := some v } :: below := by
  obtain ⟨w, hw⟩ := Option.isSome_iff_exists.mp hf
  have hfound : frameArguments (above ++ f :: below) = some (f.activation, w) :=
    frameArguments_eq_some.mpr ⟨above, f, below, rfl, rfl, hw, habove⟩
  simp only [opSetArguments, hfound, Option.isSome_some, if_true, setFrameArguments,
    setNearest_append habove hf]

theorem HomeOf.modify {fnIdx : Nat} {home : Option Nat} (h : HomeOf t records fnIdx home) (a : Nat)
    (v : ArgumentsValue V) :
    HomeOf t (records.modify a fun r => { r with arguments := v }) fnIdx home := by
  cases home with
  | none => exact h
  | some b =>
    obtain ⟨r, hr, hunit, howner⟩ := h
    rw [HomeOf, List.getElem?_modify, hr]
    by_cases hab : a = b
    · exact ⟨{ r with arguments := v }, by simp [hab], hunit, howner⟩
    · exact ⟨r, by simp [hab], hunit, howner⟩

theorem FrameOk.modify {f : CallFrame V} (h : FrameOk t records f) {a : Nat} (ha : f.activation ≠ a)
    (v : ArgumentsValue V) :
    FrameOk t (records.modify a fun r => { r with arguments := v }) f where
  carries := h.carries
  record := by
    obtain ⟨r, hr, hrest⟩ := h.record
    exact ⟨r, by simp [hr, Ne.symm ha], hrest⟩
  home := h.home.modify a v

theorem FrameOk.assign {f : CallFrame V} (h : FrameOk t records f) (hf : f.arguments.isSome)
    (v : ArgumentsValue V) :
    FrameOk t (records.modify f.activation fun r => { r with arguments := v })
      { f with arguments := some v } where
  carries := by
    rw [← h.carries, hf]
    rfl
  record := by
    obtain ⟨r, hr, hfn, -⟩ := h.record
    refine ⟨{ r with arguments := v }, by simp [hr], hfn, fun w hw => ?_⟩
    exact Option.some.inj hw
  home := h.home.modify f.activation v

theorem Inv.write (h : s.Inv t) (v : V)
    (hreach : s.refers t → InReach t s.frames (s.frames.head?.bind CallFrame.home)) :
    (s.write t v).Inv t := by
  unfold ArgumentsState.write
  split
  · rename_i hrefers
    have hfound := (shared_denotes_iff t h hrefers).mpr (hreach hrefers)
    obtain ⟨top, rest, hframes, htop⟩ := exists_top_of_refers hrefers
    have hhome : s.frames.head?.bind CallFrame.home = top.home := by simp [hframes]
    unfold assignLexical
    unfold lexicalArguments at hfound
    rw [hhome] at hfound ⊢
    cases hcase : top.home with
    | none =>
      rw [hcase] at hfound
      rw [opSetArguments_of_none hfound]
      exact h
    | some a =>
      have hrecord := (h.frames top (by simp [hframes])).home
      rw [hcase] at hrecord hfound
      obtain ⟨r, hr, -⟩ := hrecord
      simp only [Option.bind_some, hr, Option.map_some] at hfound
      obtain ⟨above, f, below, heq, hact, hslot, habove⟩ := frameArguments_eq_some.mp hfound
      have hsome : f.arguments.isSome := by simp [hslot]
      have hdistinct := h.distinct
      rw [heq] at hdistinct ⊢
      rw [opSetArguments_append habove hsome]
      have hother : ∀ g, g ∈ above ∨ g ∈ below → g.activation ≠ a := by
        intro g hg hga
        rw [List.map_append, List.map_cons, List.nodup_append, List.nodup_cons] at hdistinct
        obtain ⟨-, ⟨hbelow, -⟩, hdisjoint⟩ := hdistinct
        rcases hg with hg | hg
        · exact hdisjoint _ (List.mem_map_of_mem hg) _ (by simp) (hga.trans hact.symm)
        · exact hbelow (List.mem_map.mpr ⟨g, hg, hga.trans hact.symm⟩)
      refine ⟨fun g hg => ?_, ?_, fun c hc => ?_⟩
      · rcases List.mem_append.mp hg with hg | hg
        · exact (h.frames g (by simp [heq, hg])).modify (hother g (.inl hg)) _
        · rcases List.mem_cons.mp hg with rfl | hg
          · subst hact
            exact (h.frames f (by simp [heq])).assign hsome _
          · exact (h.frames g (by simp [heq, hg])).modify (hother g (.inr hg)) _
      · simpa using hdistinct
      · exact ⟨(h.closures c hc).function, fun harrow => ((h.closures c hc).home harrow).modify a _⟩
  · exact h

/-- **Step**: a step that reaches the home keeps frames and records together. -/
theorem inv_step (t : UnitTree) (event : ArgumentsEvent V) (h : s.Inv t)
    (hreach : s.Reaches t event) : (s.step t event).Inv t := by
  cases event with
  | closure fnIdx => exact h.makeClosure fnIdx
  | call closure actuals => exact h.call closure actuals
  | leave => exact h.leave
  | read => exact h
  | write v => exact h.write v hreach

theorem denotes_iff_reaches (t : UnitTree) (event : ArgumentsEvent V) (h : s.Inv t) :
    s.Denotes t event ↔ s.Reaches t event := by
  cases event with
  | read => exact forall_congr' fun hrefers => shared_denotes_iff t h hrefers
  | write v => exact forall_congr' fun hrefers => shared_denotes_iff t h hrefers
  | _ => exact Iff.rfl

end ArgumentsState

/-- **References to `arguments` along a run**: each finds the binding of the activation its
closure was created in exactly when, at each, that activation is in reach. -/
theorem references_denote_iff (t : UnitTree) (events : List (ArgumentsEvent V)) :
    (∀ before event after, events = before ++ event :: after →
        (Lib.run (ArgumentsState.step t) ArgumentsState.start before).Denotes t event) ↔
      Lib.StepsMeet (ArgumentsState.step t) (ArgumentsState.Reaches t) ArgumentsState.start
        events :=
  Lib.steps_iff_of_invariant (I := ArgumentsState.Inv t) (Q := ArgumentsState.Denotes t)
    (fun s a h => ArgumentsState.denotes_iff_reaches t (s := s) a h)
    (fun s a h => ArgumentsState.inv_step t (s := s) a h) (ArgumentsState.inv_start t) events

/-- A function with an arrow in it that refers to `arguments`. -/
def arrowInFunction : UnitTree where
  main := ⟨0, false, false, false⟩
  functions := [⟨0, false, false, false⟩, ⟨1, true, true, false⟩]
  main_not_arrow := rfl
  parent_le i u hu := by
    cases i with
    | zero =>
      cases hu
      decide
    | succ i =>
      cases i with
      | zero =>
        cases hu
        decide
      | succ i => cases hu

/-- The function returns the arrow: called afterwards, it finds no `arguments`. -/
theorem escaped_arrow_finds_none :
    ¬ ∀ before event after,
      ([.closure 1, .call 0 [7], .closure 2, .leave, .call 1 [], .read] :
        List (ArgumentsEvent Nat)) = before ++ event :: after →
      (Lib.run (ArgumentsState.step arrowInFunction) ArgumentsState.start before).Denotes
        arrowInFunction event := by
  intro hall
  have hread := hall [.closure 1, .call 0 [7], .closure 2, .leave, .call 1 []] .read [] rfl rfl
  revert hread
  decide

end V12.Interp
