/-
V12.Heap.Space — one slot space of the heap: allocation, the lazy sweep
and the publication of a mark, from `v12-heap/src/gc.rs`.

The free list is a stack, its top first. The flag arrays are as long as the
slot vector by construction. `Ledger` is the bookkeeping invariant of a
space; `Sweeps` says what sweeping can do to it.
-/
import V12.Lib.Mark

namespace V12.Heap

/-! ## §1 Flag arrays -/

def flag (bits : List Bool) (i : Nat) : Bool := bits[i]?.getD false

theorem flag_lt {bits : List Bool} {i : Nat} (h : flag bits i = true) : i < bits.length := by
  by_contra hlt
  rw [flag, List.getElem?_eq_none (by omega)] at h
  cases h

theorem flag_set {bits : List Bool} {i : Nat} (hi : i < bits.length) (b : Bool) (j : Nat) :
    flag (bits.set i b) j = if j = i then b else flag bits j := by
  unfold flag
  rw [List.getElem?_set]
  by_cases hji : i = j
  · simp [hji, hji ▸ hi]
  · simp [hji, Ne.symm hji]

theorem flag_append_false (bits : List Bool) (i : Nat) :
    flag (bits ++ [false]) i = flag bits i := by
  unfold flag
  rw [List.getElem?_append]
  split
  case isTrue => rfl
  case isFalse h =>
    rw [List.getElem?_eq_none (by omega : bits.length ≤ i)]
    cases i - bits.length <;> simp

theorem flag_map_range (f : Nat → Bool) (n i : Nat) :
    flag ((List.range n).map f) i = (decide (i < n) && f i) := by
  unfold flag
  by_cases hi : i < n
  · simp [hi]
  · simp [hi]

/-! ## §2 The space -/

structure SpaceState (α : Type) where
  slots : List α
  /-- Released slots, the next one to hand out first. -/
  free : List Nat
  alive : List Bool
  /-- Payload released, index in the free list. -/
  released : List Bool
  /-- Next slot the lazy sweep examines. -/
  sweepCursor : Nat
  /-- Dead slots of the last mark not yet in the free list. -/
  pendingDead : Nat
  alive_aligned : alive.length = slots.length
  released_aligned : released.length = slots.length

namespace SpaceState

variable {α : Type}
variable {s : SpaceState α}

def isAlive (s : SpaceState α) (i : Nat) : Bool := flag s.alive i

def isReleased (s : SpaceState α) (i : Nat) : Bool := flag s.released i

def empty : SpaceState α := ⟨[], [], [], [], 0, 0, rfl, rfl⟩

def bornLive (slots : List α) : SpaceState α :=
  ⟨slots, [], slots.map fun _ => true, slots.map fun _ => false, 0, 0, by simp, by simp⟩

/-- `SWEEP_BUDGET_SLOTS`. -/
def sweepBudgetSlots : Nat := 256

def isPending (s : SpaceState α) (i : Nat) : Bool := !s.isAlive i && !s.isReleased i

def advance (s : SpaceState α) : SpaceState α := { s with sweepCursor := s.sweepCursor + 1 }

def skip (s : SpaceState α) : SpaceState α := { s with sweepCursor := s.slots.length }

section Sweep

variable [Inhabited α]

/-- Drops a dead slot's payload and files the slot in the free list. -/
def release (s : SpaceState α) (i : Nat) : SpaceState α :=
  { s with
    slots := s.slots.set i default
    released := s.released.set i true
    pendingDead := s.pendingDead - 1
    free := i :: s.free
    alive_aligned := by simpa using s.alive_aligned
    released_aligned := by simpa using s.released_aligned }

/-- The `while` of `sweep_step`, up to `n` slots or the first one released. -/
def sweepScan : Nat → SpaceState α → SpaceState α
  | 0, s => s
  | n + 1, s =>
    if s.isPending s.sweepCursor then s.advance.release s.sweepCursor else sweepScan n s.advance

def sweepRoom (s : SpaceState α) : Nat :=
  min s.slots.length (s.sweepCursor + sweepBudgetSlots) - s.sweepCursor

/-- `sweep_step`; true when unswept slots may remain. -/
def sweepStep (s : SpaceState α) : SpaceState α × Bool :=
  if s.pendingDead = 0 then (s.skip, false)
  else (s.sweepScan s.sweepRoom, decide ((s.sweepScan s.sweepRoom).sweepCursor < s.slots.length))

/-- `while self.sweep_step() {}`. -/
def finishFrom : Nat → SpaceState α → SpaceState α
  | 0, s => s
  | fuel + 1, s => if s.sweepStep.2 then finishFrom fuel s.sweepStep.1 else s.sweepStep.1

/-- `finish_sweep` on this space; each round but the last moves the cursor. -/
def finishSweep (s : SpaceState α) : SpaceState α := s.finishFrom (s.slots.length + 1)

/-! ## §3 Allocation -/

/-- Hands the slot `i` out for `value`. -/
def place (s : SpaceState α) (i : Nat) (value : α) : SpaceState α :=
  { s with
    released := s.released.set i false
    slots := s.slots.set i value
    alive := s.alive.set i true
    alive_aligned := by simpa using s.alive_aligned
    released_aligned := by simpa using s.released_aligned }

def extend (s : SpaceState α) (value : α) : SpaceState α :=
  { s with
    slots := s.slots ++ [value]
    alive := s.alive ++ [false]
    released := s.released ++ [false]
    alive_aligned := by simpa using s.alive_aligned
    released_aligned := by simpa using s.released_aligned }

/-- The loop of `alloc`: pop a free slot, else sweep on, and extend the vector
once the space is swept and the free list still empty. -/
def allocFrom (value : α) : Nat → SpaceState α → Option (SpaceState α × Nat)
  | 0, _ => none
  | fuel + 1, s =>
    match s.free with
    | i :: rest => some ({ s with free := rest }.place i value, i)
    | [] =>
      if !s.sweepStep.2 && s.sweepStep.1.free.isEmpty then
        let i := s.sweepStep.1.slots.length
        some ((s.sweepStep.1.extend value).place i value, i)
      else allocFrom value fuel s.sweepStep.1

end Sweep

/-! ## §4 Publishing a mark -/

/-- `publish_mark`. -/
def publishMark (s : SpaceState α) (marked : Nat → Bool) : SpaceState α :=
  let released := (List.range s.slots.length).map fun i => s.isReleased i && !marked i
  { s with
    free := s.free.filter fun i => !marked i
    released := released
    alive := (List.range s.slots.length).map marked
    pendingDead := (List.range s.slots.length).countP fun i => !marked i && !flag released i
    sweepCursor := 0
    alive_aligned := by simp
    released_aligned := by simp [released] }

/-! ## §5 The ledger -/

/-- **The sweep bookkeeping**: a slot is in the free list, once, exactly when
it is released; released slots are dead; the pending count is the number of
dead slots not yet released; and none of these lies behind the cursor. -/
structure Ledger (s : SpaceState α) : Prop where
  nodup : s.free.Nodup
  mem_free : ∀ i, i ∈ s.free ↔ s.isReleased i = true
  dead : ∀ i, s.isReleased i = true → s.isAlive i = false
  pending : s.pendingDead = (List.range s.slots.length).countP s.isPending
  behind : ∀ i, i < s.sweepCursor → i < s.slots.length → s.isPending i = false

theorem isAlive_lt {i : Nat} (h : s.isAlive i = true) : i < s.slots.length := by
  rw [← s.alive_aligned]
  exact flag_lt h

theorem isReleased_lt {i : Nat} (h : s.isReleased i = true) :
    i < s.slots.length := by
  rw [← s.released_aligned]
  exact flag_lt h

theorem ledger_empty : Ledger (empty : SpaceState α) :=
  ⟨List.nodup_nil, by simp [empty, isReleased, flag], by simp [empty, isReleased, flag], rfl,
    fun i hi => absurd hi (Nat.not_lt_zero i)⟩

theorem isAlive_bornLive (slots : List α) (i : Nat) :
    (bornLive slots).isAlive i = decide (i < slots.length) := by
  unfold isAlive flag bornLive
  by_cases hi : i < slots.length
  · simp [hi]
  · simp [hi]

theorem isReleased_bornLive (slots : List α) (i : Nat) :
    (bornLive slots).isReleased i = false := by
  simp only [isReleased, flag, bornLive, List.getElem?_map]
  cases slots[i]? <;> rfl

theorem ledger_bornLive (slots : List α) : Ledger (bornLive slots) := by
  refine ⟨List.nodup_nil, fun i => ?_, fun i h => ?_, ?_, fun i hi => absurd hi (Nat.not_lt_zero i)⟩
  · rw [isReleased_bornLive]
    simp [bornLive]
  · rw [isReleased_bornLive] at h
    cases h
  · have hnone : (List.range (bornLive slots).slots.length).countP (bornLive slots).isPending = 0 := by
      rw [List.countP_eq_zero]
      intro i hi
      have hlt : i < slots.length := List.mem_range.mp hi
      simp [isPending, isAlive_bornLive, hlt]
    rw [hnone]
    rfl

/-! ## §6 What sweeping does -/

/-- A change that only moves the cursor and releases dead slots. -/
structure Sweeps (s s' : SpaceState α) : Prop where
  length : s'.slots.length = s.slots.length
  alive : s'.alive = s.alive
  contents : ∀ i, s.isAlive i = true → s'.slots[i]? = s.slots[i]?
  ledger : Ledger s → Ledger s'

theorem Sweeps.refl (s : SpaceState α) : Sweeps s s := ⟨rfl, rfl, fun _ _ => rfl, id⟩

theorem Sweeps.isAlive {s' : SpaceState α} (h : Sweeps s s') (i : Nat) :
    s'.isAlive i = s.isAlive i := by
  unfold SpaceState.isAlive
  rw [h.alive]

theorem Sweeps.trans {s₁ s₂ s₃ : SpaceState α} (h₁ : Sweeps s₁ s₂) (h₂ : Sweeps s₂ s₃) :
    Sweeps s₁ s₃ :=
  ⟨h₂.length.trans h₁.length, h₂.alive.trans h₁.alive,
    fun i hi => (h₂.contents i (by rw [h₁.isAlive]; exact hi)).trans (h₁.contents i hi),
    fun h => h₂.ledger (h₁.ledger h)⟩

theorem advance_sweeps (hkept : s.isPending s.sweepCursor = false) :
    Sweeps s s.advance := by
  refine ⟨rfl, rfl, fun _ _ => rfl, fun h =>
    ⟨h.nodup, h.mem_free, h.dead, h.pending, fun j hj hlt => ?_⟩⟩
  have hcursor : j < s.sweepCursor + 1 := hj
  by_cases heq : j = s.sweepCursor
  · rw [heq]
    exact hkept
  · exact h.behind j (by omega) hlt

theorem skip_sweeps (hzero : s.pendingDead = 0) : Sweeps s s.skip := by
  refine ⟨rfl, rfl, fun _ _ => rfl, fun h =>
    ⟨h.nodup, h.mem_free, h.dead, h.pending, fun j _ hlt => ?_⟩⟩
  have hcount : (List.range s.slots.length).countP s.isPending = 0 := h.pending.symm.trans hzero
  have hkept : s.isPending j = false := by
    simpa using List.countP_eq_zero.mp hcount j (List.mem_range.mpr hlt)
  exact hkept

section Sweep

variable [Inhabited α]

theorem isReleased_release {i : Nat} (hi : i < s.slots.length) (j : Nat) :
    (s.release i).isReleased j = if j = i then true else s.isReleased j :=
  flag_set (by rw [s.released_aligned]; exact hi) true j

theorem release_sweeps (hi : s.sweepCursor < s.slots.length)
    (hpending : s.isPending s.sweepCursor = true) :
    Sweeps s (s.advance.release s.sweepCursor) := by
  have hlen : (s.advance.release s.sweepCursor).slots.length =
      s.slots.length := by simp [release, advance]
  have hset (j : Nat) : (s.advance.release s.sweepCursor).isReleased j =
      if j = s.sweepCursor then true else s.isReleased j := isReleased_release hi j
  have hpend (j : Nat) : (s.advance.release s.sweepCursor).isPending j =
      if j = s.sweepCursor then false else s.isPending j := by
    unfold isPending
    rw [hset]
    split <;> simp [release, advance, SpaceState.isAlive]
  obtain ⟨halive, hreleased⟩ : s.isAlive s.sweepCursor = false ∧
      s.isReleased s.sweepCursor = false := by simpa [isPending] using hpending
  refine ⟨hlen, rfl, fun j hj => ?_, fun h =>
    ⟨?_, fun j => ?_, fun j hj => ?_, ?_, fun j hj hlt => ?_⟩⟩
  · have hne : s.sweepCursor ≠ j := by
      intro heq
      rw [heq, hj] at halive
      cases halive
    simp [release, advance, hne]
  · refine List.nodup_cons.mpr ⟨fun hin => ?_, h.nodup⟩
    rw [(h.mem_free s.sweepCursor).mp hin] at hreleased
    cases hreleased
  · rw [hset]
    by_cases hji : j = s.sweepCursor
    · simp [release, hji]
    · simp [release, advance, hji, h.mem_free j]
  · rw [hset] at hj
    by_cases hji : j = s.sweepCursor
    · rw [hji]
      exact halive
    · rw [if_neg hji] at hj
      exact h.dead j hj
  · have hcount : (List.range s.slots.length).countP s.isPending =
        (List.range s.slots.length).countP (s.advance.release s.sweepCursor).isPending + 1 :=
      Lib.countP_eq_succ List.nodup_range (List.mem_range.mpr hi) hpending
        (by rw [hpend, if_pos rfl]) (fun j hji => by rw [hpend, if_neg hji])
    rw [hlen]
    have hp := h.pending
    simp only [release, advance] at hcount ⊢
    omega
  · rw [hpend]
    by_cases hji : j = s.sweepCursor
    · rw [if_pos hji]
    · rw [if_neg hji]
      have hcursor : j < s.sweepCursor + 1 := hj
      exact h.behind j (by omega) (by omega)

theorem sweepScan_sweeps (n : Nat) : ∀ s : SpaceState α, s.sweepCursor + n ≤ s.slots.length →
    Sweeps s (s.sweepScan n) := by
  induction n with
  | zero => exact fun s _ => Sweeps.refl s
  | succ n ih =>
    intro s hroom
    rw [sweepScan]
    by_cases hpending : s.isPending s.sweepCursor = true
    · rw [if_pos hpending]
      exact release_sweeps (by omega) hpending
    · rw [if_neg hpending]
      have hroom' : s.advance.sweepCursor + n ≤ s.advance.slots.length := by
        simp only [advance]
        omega
      exact (advance_sweeps (by simpa using hpending)).trans (ih _ hroom')

theorem sweepStep_sweeps (s : SpaceState α) : Sweeps s s.sweepStep.1 := by
  unfold sweepStep
  split
  case isTrue hzero => exact skip_sweeps hzero
  case isFalse =>
    by_cases hroom : s.sweepCursor ≤ s.slots.length
    · refine sweepScan_sweeps _ s ?_
      unfold sweepRoom
      omega
    · have hnone : s.sweepRoom = 0 := by
        unfold sweepRoom
        omega
      rw [hnone]
      exact Sweeps.refl s

theorem sweepCursor_scan_le (n : Nat) : ∀ s : SpaceState α,
    s.sweepCursor ≤ (s.sweepScan n).sweepCursor ∧
      (0 < n → s.sweepCursor < (s.sweepScan n).sweepCursor) := by
  induction n with
  | zero => exact fun s => ⟨Nat.le_refl _, fun h => absurd h (Nat.lt_irrefl 0)⟩
  | succ n ih =>
    intro s
    rw [sweepScan]
    split
    case isTrue => exact ⟨Nat.le_succ _, fun _ => Nat.lt_succ_self _⟩
    case isFalse =>
      have h : s.sweepCursor + 1 ≤ (s.advance.sweepScan n).sweepCursor := (ih s.advance).1
      exact ⟨by omega, fun _ => by omega⟩

theorem sweepStep_progress (hmore : s.sweepStep.2 = true) :
    s.sweepCursor < s.sweepStep.1.sweepCursor ∧ s.sweepStep.1.sweepCursor < s.slots.length := by
  unfold sweepStep at hmore ⊢
  split at hmore
  case isTrue => cases hmore
  case isFalse hzero =>
    rw [if_neg hzero]
    have hend : (s.sweepScan s.sweepRoom).sweepCursor < s.slots.length := of_decide_eq_true hmore
    have hle := (sweepCursor_scan_le s.sweepRoom s).1
    refine ⟨(sweepCursor_scan_le s.sweepRoom s).2 ?_, hend⟩
    simp only [sweepRoom, sweepBudgetSlots] at hle hend ⊢
    omega

theorem finishFrom_sweeps (fuel : Nat) : ∀ s : SpaceState α, Sweeps s (s.finishFrom fuel) := by
  induction fuel with
  | zero => exact Sweeps.refl
  | succ fuel ih =>
    intro s
    rw [finishFrom]
    split
    case isTrue => exact (sweepStep_sweeps s).trans (ih _)
    case isFalse => exact sweepStep_sweeps s

theorem finishSweep_sweeps (s : SpaceState α) : Sweeps s s.finishSweep := finishFrom_sweeps _ s

end Sweep

/-! ## §7 What allocation does -/

/-- `s'` is `s` with the slot `i`, dead until now, handed out for `value`. -/
structure Allocates (s : SpaceState α) (value : α) (s' : SpaceState α) (i : Nat) : Prop where
  dead : s.isAlive i = false
  slot : s'.slots[i]? = some value
  alive : ∀ j, s'.isAlive j = if j = i then true else s.isAlive j
  contents : ∀ j, s.isAlive j = true → s'.slots[j]? = s.slots[j]?
  ledger : Ledger s'
  length : s.slots.length ≤ s'.slots.length

theorem Sweeps.allocates {s' s'' : SpaceState α} {value : α} {i : Nat} (h : Sweeps s s')
    (ha : Allocates s' value s'' i) : Allocates s value s'' i := by
  refine ⟨?_, ha.slot, fun j => ?_, fun j hj => ?_, ha.ledger, ?_⟩
  · rw [← h.isAlive]
    exact ha.dead
  · rw [ha.alive, h.isAlive]
  · rw [ha.contents j (by rw [h.isAlive]; exact hj), h.contents j hj]
  · have := ha.length
    rw [h.length] at this
    exact this

theorem isAlive_place {i : Nat} (hi : i < s.slots.length) (value : α) (j : Nat) :
    (s.place i value).isAlive j = if j = i then true else s.isAlive j :=
  flag_set (by rw [s.alive_aligned]; exact hi) true j

theorem isReleased_place {i : Nat} (hi : i < s.slots.length) (value : α) (j : Nat) :
    (s.place i value).isReleased j = if j = i then false else s.isReleased j :=
  flag_set (by rw [s.released_aligned]; exact hi) false j

theorem pop_allocates (h : Ledger s) {i : Nat} {rest : List Nat} (hfree : s.free = i :: rest)
    (value : α) :
    Allocates s value ({ s with free := rest }.place i value) i := by
  have hreleased : s.isReleased i = true := (h.mem_free i).mp (by rw [hfree]; simp)
  have hi : i < s.slots.length := isReleased_lt hreleased
  have hdead := h.dead i hreleased
  have hlen : ({ s with free := rest }.place i value).slots.length = s.slots.length := by
    simp [place]
  have halive (j : Nat) : ({ s with free := rest }.place i value).isAlive j =
      if j = i then true else s.isAlive j := isAlive_place hi value j
  have hrel (j : Nat) : ({ s with free := rest }.place i value).isReleased j =
      if j = i then false else s.isReleased j := isReleased_place hi value j
  have hpend (j : Nat) : ({ s with free := rest }.place i value).isPending j = s.isPending j := by
    unfold isPending
    rw [halive, hrel]
    by_cases hji : j = i
    · simp [hji, hdead, hreleased]
    · simp [hji]
  have hnodup := h.nodup
  rw [hfree] at hnodup
  obtain ⟨hnotin, hrest⟩ := List.nodup_cons.mp hnodup
  refine ⟨hdead, by simp [place, hi], halive, fun j hj => ?_,
    ⟨hrest, fun j => ?_, fun j hj => ?_, ?_, fun j hj hlt => ?_⟩,
    Nat.le_of_eq hlen.symm⟩
  · have hne : i ≠ j := by
      intro heq
      rw [heq, hj] at hdead
      cases hdead
    simp [place, hne]
  · rw [hrel]
    have hmem := h.mem_free j
    rw [hfree, List.mem_cons] at hmem
    by_cases hji : j = i
    · rw [if_pos hji, hji]
      simpa [place] using hnotin
    · rw [if_neg hji, ← hmem]
      simp [place, hji]
  · rw [hrel] at hj
    rw [halive]
    by_cases hji : j = i
    · rw [if_pos hji] at hj
      cases hj
    · rw [if_neg hji] at hj ⊢
      exact h.dead j hj
  · rw [hlen, funext hpend]
    exact h.pending
  · rw [hpend]
    rw [hlen] at hlt
    exact h.behind j hj hlt

theorem extend_allocates (h : Ledger s) (value : α) :
    Allocates s value ((s.extend value).place s.slots.length value) s.slots.length := by
  have hi : s.slots.length < (s.extend value).slots.length := by simp [extend]
  have hlen : ((s.extend value).place s.slots.length value).slots.length = s.slots.length + 1 := by
    simp [place, extend]
  have hdead : s.isAlive s.slots.length = false := by
    cases halive : s.isAlive s.slots.length with
    | false => rfl
    | true => exact absurd (isAlive_lt halive) (Nat.lt_irrefl _)
  have hnew : s.isReleased s.slots.length = false := by
    cases hreleased : s.isReleased s.slots.length with
    | false => rfl
    | true => exact absurd (isReleased_lt hreleased) (Nat.lt_irrefl _)
  have halive (j : Nat) : ((s.extend value).place s.slots.length value).isAlive j =
      if j = s.slots.length then true else s.isAlive j := by
    rw [isAlive_place hi]
    exact congrArg (fun b => if j = s.slots.length then true else b) (flag_append_false s.alive j)
  have hrel (j : Nat) : ((s.extend value).place s.slots.length value).isReleased j =
      s.isReleased j := by
    rw [isReleased_place hi]
    by_cases hj : j = s.slots.length
    · rw [if_pos hj, hj, hnew]
    · rw [if_neg hj]
      exact flag_append_false s.released j
  have hpend (j : Nat) (hj : j < s.slots.length) :
      ((s.extend value).place s.slots.length value).isPending j = s.isPending j := by
    unfold isPending
    rw [halive, hrel, if_neg (Nat.ne_of_lt hj)]
  have hlast : ((s.extend value).place s.slots.length value).isPending s.slots.length = false := by
    unfold isPending
    rw [halive, if_pos rfl]
    rfl
  refine ⟨hdead, by simp [place, extend], halive, fun j hj => ?_,
    ⟨h.nodup, fun j => ?_, fun j hj => ?_, ?_, fun j hj hlt => ?_⟩, by omega⟩
  · have hlt := isAlive_lt hj
    simp [place, extend, List.getElem?_append, hlt]
  · rw [hrel]
    exact h.mem_free j
  · rw [hrel] at hj
    rw [halive, if_neg (Nat.ne_of_lt (isReleased_lt hj))]
    exact h.dead j hj
  · rw [hlen, List.range_succ, List.countP_append]
    have hsame : (List.range s.slots.length).countP
        ((s.extend value).place s.slots.length value).isPending =
        (List.range s.slots.length).countP s.isPending :=
      List.countP_congr fun j hj => by rw [hpend j (List.mem_range.mp hj)]
    rw [hsame, List.countP_singleton, hlast]
    exact h.pending
  · by_cases hjl : j = s.slots.length
    · rw [hjl]
      exact hlast
    · have hlt' : j < s.slots.length := by omega
      rw [hpend j hlt']
      exact h.behind j hj hlt'

section Alloc

variable [Inhabited α]

theorem allocFrom_isSome (value : α) (fuel : Nat) : ∀ s : SpaceState α,
    (s.free ≠ [] ∧ 0 < fuel) ∨ (s.slots.length + 2 ≤ s.sweepCursor + fuel ∧ 1 < fuel) →
    (allocFrom value fuel s).isSome = true := by
  induction fuel with
  | zero =>
    rintro s (⟨-, h⟩ | ⟨-, h⟩)
    · exact absurd h (Nat.lt_irrefl 0)
    · omega
  | succ fuel ih =>
    intro s hroom
    rw [allocFrom]
    cases hfree : s.free with
    | cons i rest => rfl
    | nil =>
      simp only []
      split
      case isTrue => rfl
      case isFalse hmore =>
        have hfuel : s.slots.length + 2 ≤ s.sweepCursor + (fuel + 1) ∧ 1 < fuel + 1 := by
          rcases hroom with ⟨hne, -⟩ | hfuel
          · exact absurd hfree hne
          · exact hfuel
        refine ih _ ?_
        cases hstep : s.sweepStep.2 with
        | false =>
          refine Or.inl ⟨fun hempty => hmore ?_, by omega⟩
          rw [hstep, hempty]
          rfl
        | true =>
          obtain ⟨hmoved, hend⟩ := sweepStep_progress hstep
          have hlen := (sweepStep_sweeps s).length
          exact Or.inr ⟨by omega, by omega⟩

/-- `alloc` on this space; the loop ends because every sweep step either moves
the cursor or is the last. -/
def alloc (s : SpaceState α) (value : α) : SpaceState α × Nat :=
  (allocFrom value (s.slots.length + 2) s).get
    (allocFrom_isSome value _ s (Or.inr ⟨by omega, by omega⟩))

theorem allocFrom_allocates {value : α} (fuel : Nat) : ∀ {s s' : SpaceState α} {i : Nat}, Ledger s →
    allocFrom value fuel s = some (s', i) → Allocates s value s' i := by
  induction fuel with
  | zero => exact fun _ h => by cases h
  | succ fuel ih =>
    intro s s' i h halloc
    rw [allocFrom] at halloc
    cases hfree : s.free with
    | cons k rest =>
      simp only [hfree, Option.some.injEq, Prod.mk.injEq] at halloc
      obtain ⟨rfl, rfl⟩ := halloc
      exact pop_allocates h hfree value
    | nil =>
      simp only [hfree] at halloc
      have hs := sweepStep_sweeps s
      split at halloc
      case isTrue =>
        simp only [Option.some.injEq, Prod.mk.injEq] at halloc
        obtain ⟨rfl, rfl⟩ := halloc
        exact hs.allocates (extend_allocates (hs.ledger h) value)
      case isFalse => exact hs.allocates (ih (hs.ledger h) halloc)

/-- **`alloc` hands out a dead slot** and disturbs no live one. -/
theorem alloc_allocates (h : Ledger s) (value : α) :
    Allocates s value (s.alloc value).1 (s.alloc value).2 :=
  allocFrom_allocates _ h (Option.some_get _).symm

end Alloc

/-! ## §8 What publishing does -/

theorem isAlive_publishMark (s : SpaceState α) (marked : Nat → Bool) (i : Nat) :
    (s.publishMark marked).isAlive i = (decide (i < s.slots.length) && marked i) :=
  flag_map_range marked s.slots.length i

theorem isReleased_publishMark (s : SpaceState α) (marked : Nat → Bool) (i : Nat) :
    (s.publishMark marked).isReleased i = (s.isReleased i && !marked i) := by
  have h := flag_map_range (fun i => s.isReleased i && !marked i) s.slots.length i
  rw [show (s.publishMark marked).isReleased i = _ from h]
  cases hreleased : s.isReleased i with
  | false => simp
  | true => simp [isReleased_lt hreleased]

theorem publishMark_ledger (h : Ledger s) (marked : Nat → Bool) :
    Ledger (s.publishMark marked) := by
  refine ⟨h.nodup.filter _, fun i => ?_, fun i hi => ?_, ?_, fun i hi => absurd hi (Nat.not_lt_zero i)⟩
  · rw [isReleased_publishMark, Bool.and_eq_true_iff, ← h.mem_free]
    exact List.mem_filter
  · rw [isReleased_publishMark] at hi
    rw [isAlive_publishMark]
    simp only [Bool.and_eq_true, Bool.not_eq_true'] at hi
    simp [hi.2]
  · refine List.countP_congr fun i hi => ?_
    have hlt : i < s.slots.length := List.mem_range.mp hi
    have hreleased := isReleased_publishMark s marked i
    simp only [isPending, isAlive_publishMark, hlt, decide_true, Bool.true_and]
    rfl

end SpaceState

end V12.Heap
