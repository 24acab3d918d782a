/-
V12.Engine.RegexCache — the compiled-pattern cache of
`v12-engine/src/builtins/regexp.rs` (`compile_for`, `alloc_regexp`,
`regexp_compile`) over the slots of the object space.

Collections do not touch the table, and a freed index comes back with the next
allocation.
-/
import V12.Engine.RegExp
import V12.Heap.Space
import V12.Lib.Run
import Mathlib.Logic.Function.Basic

namespace V12.Engine

open V12.Heap Lib

/-- An object slot, as far as RegExp builtins can tell. -/
inductive Cell where
  | regexp (o : RegExpObject)
  | other
  deriving DecidableEq

instance : Inhabited Cell := ⟨.other⟩

/-- The object space and the registry's `regex_cache`. -/
structure Registry (P : Type) where
  objects : SpaceState Cell
  cache : Nat → Option P

namespace Registry

variable {P : Type}
variable {r : Registry P} {i : Nat} {o : RegExpObject} {rx : Regex P}

def new : Registry P := ⟨.empty, fun _ => none⟩

/-! ## §1 The builtins -/

/-- The live RegExp object with index `i`. -/
def regexp (r : Registry P) (i : Nat) : Option RegExpObject :=
  if r.objects.isAlive i then
    match r.objects.slots[i]? with
    | some (.regexp o) => some o
    | _ => none
  else none

def put (r : Registry P) (i : Nat) (o : RegExpObject) : Registry P :=
  { r with
    objects :=
      { r.objects with
        slots := r.objects.slots.set i (.regexp o)
        alive_aligned := by simpa using r.objects.alive_aligned
        released_aligned := by simpa using r.objects.released_aligned } }

def alloc (r : Registry P) (c : Cell) : Registry P := { r with objects := (r.objects.alloc c).1 }

/-- The first arguments of `RegExp(pattern, flags)` and `compile(pattern, flags)`:
a RegExp alone is copied, anything else is made text. -/
inductive Pattern where
  | text (source flags : Text)
  | regexp (obj : Nat)

/-- The empty pattern is spelled `(?:)`. -/
def sourceText (source : Text) : Text := if source = [] then ['(', '?', ':', ')'] else source

/-- The object `regexp_construct` files: a copy as it is, a text with its flags
put in order. -/
def constructed (r : Registry P) : Pattern → Option RegExpObject
  | .regexp obj => (r.regexp obj).map fun o => .new o.source o.flags
  | .text source flags =>
    match canonicalizeFlags flags with
    | .ok canonical => some (.new (sourceText source) canonical)
    | .error _ => none

/-- The slots `regexp_compile` writes. -/
def recompiled (r : Registry P) : Pattern → Option (Text × Text)
  | .regexp obj =>
    (r.regexp obj).bind fun o =>
      match canonicalizeFlags o.flags with
      | .ok canonical => some (sourceText o.source, canonical)
      | .error _ => none
  | .text source flags =>
    match canonicalizeFlags flags with
    | .ok canonical => some (sourceText source, canonical)
    | .error _ => none

/-- `regexp_construct`; a rejected flag string throws before the allocation. -/
def construct (r : Registry P) (pattern : Pattern) : Registry P :=
  match r.constructed pattern with
  | some o => r.alloc (.regexp o)
  | none => r

/-- `compile_for`: the entry of the index if there is one, else the object's own
pattern, filed when it compiles. -/
def compileFor (rx : Regex P) (r : Registry P) (i : Nat) (o : RegExpObject) :
    Registry P × Except CompileError P :=
  match r.cache i with
  | some program => (r, .ok program)
  | none =>
    match compilePattern rx o.source o.flags with
    | .error e => (r, .error e)
    | .ok program => ({ r with cache := Function.update r.cache i (some program) }, .ok program)

/-- `regexp_exec` on the RegExp object `i`; the program is looked up unless
`lastIndex` is past the input. -/
def exec (rx : Regex P) (r : Registry P) (i : Nat) (o : RegExpObject) (input : Units) :
    Registry P × Except Throw (Option Match) :=
  let served := if o.pastEnd input then (r, compilePattern rx o.source o.flags) else r.compileFor rx i o
  let ran := o.exec rx served.2 input
  (served.1.put i ran.1, ran.2)

/-- `regexp_compile`: the slots are written first, then `lastIndex`, and the entry
goes last; a read-only `lastIndex` throws in between. -/
def compile (r : Registry P) (i : Nat) (o : RegExpObject) (slots : Text × Text) : Registry P :=
  let o' : RegExpObject := { o with source := slots.1, flags := slots.2 }
  match o'.setLastIndex 0 with
  | .ok o'' => { r.put i o'' with cache := Function.update r.cache i none }
  | .error _ => r.put i o'

/-- One step: a builtin, a script's own writes of `lastIndex`, an allocation of
another kind of object, a turn of the lazy sweep, or a collection that leaves
`survivors` alive. -/
inductive Op where
  | construct (pattern : Pattern)
  | compile (obj : Nat) (pattern : Pattern)
  | exec (obj : Nat) (input : Units)
  | writeLastIndex (obj v : Nat)
  | freezeLastIndex (obj : Nat)
  | allocOther
  | sweepStep
  | collect (survivors : Nat → Bool)

/-- `force_collect` on the object space. -/
def collect (r : Registry P) (survivors : Nat → Bool) : Registry P :=
  { r with
    objects := r.objects.finishSweep.publishMark fun i => r.objects.isAlive i && survivors i }

def step (rx : Regex P) (r : Registry P) : Op → Registry P
  | .construct pattern => r.construct pattern
  | .compile obj pattern =>
    match r.regexp obj, r.recompiled pattern with
    | some o, some slots => r.compile obj o slots
    | _, _ => r
  | .exec obj input =>
    match r.regexp obj with
    | some o => (r.exec rx obj o input).1
    | none => r
  | .writeLastIndex obj v =>
    match r.regexp obj with
    | some o => if o.writable then r.put obj { o with lastIndex := v } else r
    | none => r
  | .freezeLastIndex obj =>
    match r.regexp obj with
    | some o => r.put obj { o with writable := false }
    | none => r
  | .allocOther => r.alloc .other
  | .sweepStep => { r with objects := r.objects.sweepStep.1 }
  | .collect survivors => r.collect survivors

/-! ## §2 What is served -/

/-- **Every exec runs the object's own pattern**: what `compileFor` serves a live
RegExp object is what its current source and flags compile to. -/
def Served (rx : Regex P) (r : Registry P) : Prop :=
  ∀ i o, r.regexp i = some o → (r.compileFor rx i o).2 = compilePattern rx o.source o.flags

/-- The entry of an index, if there is one, is the program of the pattern. -/
def EntryFits (rx : Regex P) (r : Registry P) (i : Nat) (source flags : Text) : Prop :=
  ∀ program, r.cache i = some program → compilePattern rx source flags = .ok program

/-- **The condition on a step**: a new RegExp does not get an index with an entry
of another pattern, and `compile` on a read-only `lastIndex`, which keeps the
entry, keeps one of the new pattern. -/
def Clean (rx : Regex P) (r : Registry P) : Op → Prop
  | .construct pattern =>
    ∀ o, r.constructed pattern = some o →
      r.EntryFits rx (r.objects.alloc (.regexp o)).2 o.source o.flags
  | .compile obj pattern =>
    ∀ o slots, r.regexp obj = some o → r.recompiled pattern = some slots → o.writable = false →
      r.EntryFits rx obj slots.1 slots.2
  | .exec .. | .writeLastIndex .. | .freezeLastIndex _ | .allocOther | .sweepStep | .collect _ =>
    True

theorem compileFor_eq_iff (rx : Regex P) (r : Registry P) (i : Nat) (o : RegExpObject) :
    (r.compileFor rx i o).2 = compilePattern rx o.source o.flags ↔
      r.EntryFits rx i o.source o.flags := by
  unfold compileFor EntryFits
  cases hentry : r.cache i with
  | some program =>
    constructor
    · intro h program' hp
      cases hp
      exact h.symm
    · intro h
      exact (h program rfl).symm
  | none =>
    cases hc : compilePattern rx o.source o.flags with
    | error e => simp
    | ok program => simp

theorem served_iff_entryFits (rx : Regex P) (r : Registry P) :
    r.Served rx ↔ ∀ i o, r.regexp i = some o → r.EntryFits rx i o.source o.flags := by
  constructor
  · intro h i o ho
    exact (compileFor_eq_iff rx r i o).mp (h i o ho)
  · intro h i o ho
    exact (compileFor_eq_iff rx r i o).mpr (h i o ho)

/-! ## §3 Objects under the steps -/

theorem regexp_eq_some :
    r.regexp i = some o ↔ r.objects.isAlive i = true ∧ r.objects.slots[i]? = some (.regexp o) := by
  unfold regexp
  cases ha : r.objects.isAlive i with
  | false => simp
  | true =>
    cases hs : r.objects.slots[i]? with
    | none => simp
    | some c => cases c <;> simp

theorem regexp_put (hi : r.regexp i = some o) (o' : RegExpObject) (j : Nat) :
    (r.put i o').regexp j = if j = i then some o' else r.regexp j := by
  obtain ⟨halive, hslot⟩ := regexp_eq_some.mp hi
  have hlt : i < r.objects.slots.length := (List.getElem?_eq_some_iff.mp hslot).1
  have hflag : (r.put i o').objects.isAlive j = r.objects.isAlive j := rfl
  by_cases hj : j = i
  · subst hj
    rw [if_pos rfl]
    refine regexp_eq_some.mpr ⟨by rw [hflag]; exact halive, ?_⟩
    simp [put, hlt]
  · rw [if_neg hj]
    unfold regexp
    rw [hflag]
    simp [put, Ne.symm hj]

theorem ledger_put (h : r.objects.Ledger) (i : Nat) (o : RegExpObject) :
    (r.put i o).objects.Ledger where
  nodup := h.nodup
  mem_free := h.mem_free
  dead := h.dead
  pending := by
    have hlen : (r.put i o).objects.slots.length = r.objects.slots.length := by simp [put]
    rw [hlen]
    exact h.pending
  behind j hj hlt := h.behind j hj (by simpa [put] using hlt)

theorem regexp_alloc (h : r.objects.Ledger) (c : Cell) (j : Nat) :
    (r.alloc c).regexp j =
      if j = (r.objects.alloc c).2 then
        match c with
        | .regexp o => some o
        | .other => none
      else r.regexp j := by
  have ha := SpaceState.alloc_allocates h c
  by_cases hj : j = (r.objects.alloc c).2
  · subst hj
    simp only [regexp, alloc, ha.alive, if_true, ha.slot]
    cases c <;> rfl
  · rw [if_neg hj]
    unfold regexp
    have halive : (r.alloc c).objects.isAlive j = r.objects.isAlive j := by
      simp [alloc, ha.alive, hj]
    rw [halive]
    cases hl : r.objects.isAlive j with
    | false => rfl
    | true =>
      have hcontents : (r.alloc c).objects.slots[j]? = r.objects.slots[j]? := ha.contents j hl
      rw [hcontents]

theorem regexp_collect {survivors : Nat → Bool} (h : (r.collect survivors).regexp i = some o) :
    r.regexp i = some o := by
  obtain ⟨halive, hslot⟩ := regexp_eq_some.mp h
  have hsweeps := SpaceState.finishSweep_sweeps r.objects
  rw [collect, SpaceState.isAlive_publishMark] at halive
  simp only [Bool.and_eq_true, decide_eq_true_eq] at halive
  refine regexp_eq_some.mpr ⟨halive.2.1, ?_⟩
  rw [← hsweeps.contents i halive.2.1]
  exact hslot

theorem regexp_sweepStep (r : Registry P) (i : Nat) :
    ({ r with objects := r.objects.sweepStep.1 } : Registry P).regexp i = r.regexp i := by
  have hsweeps := SpaceState.sweepStep_sweeps r.objects
  unfold regexp
  have halive : r.objects.sweepStep.1.isAlive i = r.objects.isAlive i := hsweeps.isAlive i
  simp only [halive]
  cases hl : r.objects.isAlive i with
  | false => rfl
  | true => simp only [hsweeps.contents i hl]

/-! ## §4 One step -/

/-- **The invariant** behind the run: the space keeps its books and every entry
at a live RegExp's index fits. -/
structure Sound (rx : Regex P) (r : Registry P) : Prop where
  ledger : r.objects.Ledger
  served : r.Served rx

theorem entryFits_of_cache_eq {r' : Registry P} (h : r'.cache i = r.cache i) (source flags : Text) :
    r'.EntryFits rx i source flags ↔ r.EntryFits rx i source flags := by
  simp [EntryFits, h]

theorem served_put (h : r.Served rx) {o' : RegExpObject} (hi : r.regexp i = some o)
    (hslots : o'.source = o.source ∧ o'.flags = o.flags) : (r.put i o').Served rx := by
  rw [served_iff_entryFits] at h ⊢
  intro j oj hj
  rw [regexp_put hi] at hj
  by_cases hji : j = i
  · subst hji
    simp only [if_true, Option.some.injEq] at hj
    subst hj
    rw [hslots.1, hslots.2]
    exact h j o hi
  · rw [if_neg hji] at hj
    exact h j oj hj

theorem served_compileFor (h : r.Served rx) (hi : r.regexp i = some o) :
    (r.compileFor rx i o).1.Served rx := by
  unfold compileFor
  cases hentry : r.cache i with
  | some program => exact h
  | none =>
    cases hc : compilePattern rx o.source o.flags with
    | error e => exact h
    | ok program =>
      rw [served_iff_entryFits] at h ⊢
      intro j oj hj
      have hj' : r.regexp j = some oj := hj
      by_cases hji : j = i
      · subst hji
        obtain rfl : o = oj := Option.some.inj (hi.symm.trans hj')
        intro program' hp
        have hfiled : some program = some program' := by simpa using hp
        rw [← Option.some.inj hfiled]
        exact hc
      · refine (entryFits_of_cache_eq ?_ _ _).mpr (h j oj hj')
        simp [Function.update_of_ne hji]

theorem regexp_compileFor (rx : Regex P) (r : Registry P) (i j : Nat) (o : RegExpObject) :
    (r.compileFor rx i o).1.regexp j = r.regexp j := by
  unfold compileFor
  cases r.cache i with
  | some program => rfl
  | none => cases compilePattern rx o.source o.flags <;> rfl

theorem ledger_compileFor (h : r.objects.Ledger) (i : Nat) (o : RegExpObject) :
    (r.compileFor rx i o).1.objects.Ledger := by
  unfold compileFor
  cases r.cache i with
  | some program => exact h
  | none => cases compilePattern rx o.source o.flags <;> exact h

/-- **Exec keeps the invariant.** -/
theorem sound_exec (h : Sound rx r) (hi : r.regexp i = some o) (input : Units) :
    Sound rx (r.exec rx i o input).1 := by
  unfold exec
  cases hpast : o.pastEnd input with
  | true =>
    exact ⟨ledger_put h.ledger _ _, served_put h.served hi (o.exec_slots rx _ input)⟩
  | false =>
    have hi' : (r.compileFor rx i o).1.regexp i = some o := by rw [regexp_compileFor, hi]
    exact ⟨ledger_put (ledger_compileFor h.ledger i o) _ _,
      served_put (served_compileFor h.served hi) hi' (o.exec_slots rx _ input)⟩

/-- **An allocation** serves the new object exactly when the entry it finds at
its index fits. -/
theorem served_alloc_iff (h : Sound rx r) (o : RegExpObject) :
    (r.alloc (.regexp o)).Served rx ↔
      r.EntryFits rx (r.objects.alloc (.regexp o)).2 o.source o.flags := by
  rw [served_iff_entryFits]
  constructor
  · intro hall
    refine hall _ o ?_
    rw [regexp_alloc h.ledger, if_pos rfl]
  · intro hfits j oj hj
    rw [regexp_alloc h.ledger] at hj
    by_cases hji : j = (r.objects.alloc (.regexp o)).2
    · rw [if_pos hji] at hj
      obtain rfl : o = oj := Option.some.inj hj
      rw [hji]
      exact hfits
    · rw [if_neg hji] at hj
      exact (served_iff_entryFits rx r).mp h.served j oj hj

/-- **`compile`** serves the new pattern exactly when the entry it keeps, if it
keeps one, fits. -/
theorem served_compile_iff (h : Sound rx r) (hi : r.regexp i = some o) (slots : Text × Text) :
    (r.compile i o slots).Served rx ↔
      (o.writable = false → r.EntryFits rx i slots.1 slots.2) := by
  have hserved := (served_iff_entryFits rx r).mp h.served
  rw [served_iff_entryFits]
  unfold compile RegExpObject.setLastIndex
  cases hw : o.writable with
  | true =>
    simp only [if_true]
    constructor
    · intro _ hfalse
      cases hfalse
    · intro _ j oj hj program hp
      by_cases hji : j = i
      · subst hji
        simp at hp
      · have hj' : (r.put i _).regexp j = some oj := hj
        rw [regexp_put hi, if_neg hji] at hj'
        have hp' : r.cache j = some program := by simpa [Function.update_of_ne hji] using hp
        exact hserved j oj hj' program hp'
  | false =>
    simp only [Bool.false_eq_true, if_false]
    constructor
    · intro hall _
      exact hall i _ (by rw [regexp_put hi, if_pos rfl])
    · intro hfits j oj hj
      rw [regexp_put hi] at hj
      by_cases hji : j = i
      · subst hji
        simp only [if_true, Option.some.injEq] at hj
        subst hj
        exact hfits trivial
      · rw [if_neg hji] at hj
        exact hserved j oj hj

theorem ledger_compile (h : r.objects.Ledger) (i : Nat) (o : RegExpObject) (slots : Text × Text) :
    (r.compile i o slots).objects.Ledger := by
  unfold compile RegExpObject.setLastIndex
  cases o.writable with
  | true => exact ledger_put h _ _
  | false => exact ledger_put h _ _

theorem ledger_step (h : Sound rx r) (op : Op) :
    (r.step rx op).objects.Ledger := by
  cases op with
  | construct pattern =>
    simp only [step, construct]
    split
    · exact (SpaceState.alloc_allocates h.ledger _).ledger
    · exact h.ledger
  | compile obj pattern =>
    simp only [step]
    split
    · exact ledger_compile h.ledger _ _ _
    · exact h.ledger
  | exec obj input =>
    simp only [step]
    split
    case h_1 o ho => exact (sound_exec h ho input).ledger
    case h_2 => exact h.ledger
  | writeLastIndex obj v =>
    simp only [step]
    split
    · split
      · exact ledger_put h.ledger _ _
      · exact h.ledger
    · exact h.ledger
  | freezeLastIndex obj =>
    simp only [step]
    split
    · exact ledger_put h.ledger _ _
    · exact h.ledger
  | allocOther => exact (SpaceState.alloc_allocates h.ledger _).ledger
  | sweepStep => exact (SpaceState.sweepStep_sweeps r.objects).ledger h.ledger
  | collect survivors =>
    exact SpaceState.publishMark_ledger
      ((SpaceState.finishSweep_sweeps r.objects).ledger h.ledger) _

theorem served_of_sub {r' : Registry P} (h : r.Served rx)
    (hsub : ∀ i o, r'.regexp i = some o → r.regexp i = some o) (hcache : r'.cache = r.cache) :
    r'.Served rx := by
  rw [served_iff_entryFits] at h ⊢
  intro i o hi
  exact (entryFits_of_cache_eq (by rw [hcache]) _ _).mpr (h i o (hsub i o hi))

/-- **Step lemma.** -/
theorem served_step_iff (h : Sound rx r) (op : Op) :
    (r.step rx op).Served rx ↔ r.Clean rx op := by
  cases op with
  | construct pattern =>
    simp only [step, construct, Clean]
    cases ho : r.constructed pattern with
    | none => simp [h.served]
    | some o =>
      rw [served_alloc_iff h o]
      simp
  | compile obj pattern =>
    simp only [step, Clean]
    cases ho : r.regexp obj with
    | none => simp [h.served]
    | some o =>
      cases hslots : r.recompiled pattern with
      | none => simp [h.served]
      | some slots =>
        rw [served_compile_iff h ho slots]
        simp
  | exec obj input =>
    simp only [step, Clean, iff_true]
    split
    case h_1 o ho => exact (sound_exec h ho input).served
    case h_2 => exact h.served
  | writeLastIndex obj v =>
    simp only [step, Clean, iff_true]
    split
    case h_1 o ho =>
      split
      · exact served_put h.served ho ⟨rfl, rfl⟩
      · exact h.served
    case h_2 => exact h.served
  | freezeLastIndex obj =>
    simp only [step, Clean, iff_true]
    split
    case h_1 o ho => exact served_put h.served ho ⟨rfl, rfl⟩
    case h_2 => exact h.served
  | allocOther =>
    simp only [step, Clean, iff_true]
    refine served_of_sub h.served (fun i o hi => ?_) rfl
    rw [regexp_alloc h.ledger] at hi
    split at hi
    · cases hi
    · exact hi
  | sweepStep =>
    simp only [step, Clean, iff_true]
    refine served_of_sub h.served (fun i o hi => ?_) rfl
    rw [regexp_sweepStep] at hi
    exact hi
  | collect survivors =>
    simp only [step, Clean, iff_true]
    exact served_of_sub h.served (fun i o hi => regexp_collect hi) rfl

/-! ## §5 Runs -/

theorem sound_new (rx : Regex P) : Sound rx (new : Registry P) where
  ledger := SpaceState.ledger_empty
  served i o hi := by
    have hslot := (regexp_eq_some.mp hi).2
    simp [new, SpaceState.empty] at hslot

theorem stepsMeet_served_iff (ops : List Op) (h : Sound rx r) :
    StepsMeet (step rx) (fun r op => (r.step rx op).Served rx) r ops ↔
      StepsMeet (step rx) (Clean rx) r ops := by
  induction ops generalizing r with
  | nil => rfl
  | cons op ops ih =>
    simp only [StepsMeet, served_step_iff h op]
    refine and_congr_right fun hclean => ?_
    exact ih ⟨ledger_step h op, (served_step_iff h op).mpr hclean⟩

/-- **Own patterns.** Every state of a run serves every live RegExp object its
own pattern exactly when every step of the run is clean. -/
theorem served_iff (rx : Regex P) (ops : List Op) :
    (∀ before after, ops = before ++ after → (run (step rx) new before).Served rx) ↔
      StepsMeet (step rx) (Clean rx) (new : Registry P) ops := by
  rw [← stepsMeet_served_iff ops (sound_new rx)]
  exact states_iff_stepsMeet (sound_new rx).served

def echo : Regex Text := ⟨fun source _ => .ok source, fun _ _ _ => none⟩

/-- `/a/` is executed and dies; `/b/` gets its slot. -/
def reusedSlot : List Op :=
  [.construct (.text ['a'] []), .exec 0 [], .collect fun _ => false, .construct (.text ['b'] [])]

/-- The object `/b/` is served the program of `/a/`. -/
theorem reusedSlot_serves_stale :
    ¬ ∀ before after, reusedSlot = before ++ after → (run (step echo) new before).Served echo := by
  intro h
  have hserved := h reusedSlot [] rfl
  have hobject : (run (step echo) new reusedSlot).regexp 0 = some (.new ['b'] []) := by decide
  have hanswer : (compileFor echo (run (step echo) new reusedSlot) 0 (.new ['b'] [])).2 =
      .ok ['a'] := by rfl
  have hown := hserved 0 _ hobject
  rw [hanswer] at hown
  cases hown

end Registry

end V12.Engine
