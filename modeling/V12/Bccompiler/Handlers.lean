/-
V12.Bccompiler.Handlers — exception handlers through the whole pass.

The pass moves the bounds of a range by counting survivors, so a surviving
word is protected by the ranges it was protected by (§2). The walk and the
nesting check survive a round that meets `Sound` (§3), and an entry point stays
with its instruction, up to branches that went nowhere (§4).
-/
import V12.Bccompiler.Survivors
import V12.Bccompiler.Deletable

namespace V12.Bccompiler

open V12.Bytecode V12.Interp

variable {σ : Type}

/-! ## §1 Ranges moved -/

def move (survivors : List Nat) (h : HandlerRange) : HandlerRange :=
  { h with
    start := rank survivors h.start
    stop := rank survivors h.stop
    target := rank survivors h.target }

/-- The ranges cover words of the body, and their entries are in it. -/
def ProperRanges (c : Code σ) : Prop :=
  ∀ h ∈ c.handlers, h.start < h.stop ∧ h.stop ≤ c.instrs.length ∧ h.target ≤ c.instrs.length

instance (c : Code σ) : Decidable (ProperRanges c) :=
  inferInstanceAs (Decidable (∀ h ∈ c.handlers,
    h.start < h.stop ∧ h.stop ≤ c.instrs.length ∧ h.target ≤ c.instrs.length))

theorem properRanges_round {c : Code σ} (h : ProperRanges c) : ProperRanges (round c).1 := by
  intro x hx
  rw [round_handlers] at hx
  rw [length_round]
  split at hx
  case isTrue =>
    obtain ⟨hmap, hlt⟩ := List.mem_filter.mp hx
    obtain ⟨x₀, hx₀, rfl⟩ := List.mem_map.mp hmap
    obtain ⟨-, hstop, htarget⟩ := h x₀ hx₀
    exact ⟨by simpa using hlt, newIndex_mono _ hstop, newIndex_mono _ htarget⟩
  case isFalse hnone =>
    have hcount : keptCount c.instrs = c.instrs.length := newIndex_of_all_kept hnone (by simp)
    rw [hcount]
    exact h x hx

theorem round_handlers_proper {c : Code σ} (h : ProperRanges c) : (round c).1.handlers =
    (c.handlers.map (remapHandler (keepOf c.instrs))).filter fun x => x.start < x.stop := by
  rw [round_handlers]
  split
  · rfl
  case isFalse hnone =>
    have hself (i : Nat) (hi : i ≤ c.instrs.length) : newIndex (keepOf c.instrs) i = i :=
      newIndex_of_all_kept hnone (by simpa using hi)
    have hmap : c.handlers.map (remapHandler (keepOf c.instrs)) = c.handlers := by
      refine List.map_congr_left (g := id) (fun x hx => ?_) |>.trans (List.map_id _)
      obtain ⟨hlt, hstop, htarget⟩ := h x hx
      simp only [remapHandler, hself x.start (by omega), hself x.stop hstop, hself x.target htarget]
      rfl
    rw [hmap]
    exact (List.filter_eq_self.mpr fun x hx => by simpa using (h x hx).1).symm

/-- **The handlers at the end** are the ranges moved, without those that cover
no survivor. -/
theorem handlers_roundsFrom (rounds : Nat) {c : Code σ} (h : ProperRanges c) :
    (roundsFrom rounds c).handlers =
      (c.handlers.map (move (survivorsFrom rounds c))).filter fun x => x.start < x.stop := by
  have hzero {c : Code σ} (h : ProperRanges c) :
      c.handlers = (c.handlers.map (move (survivorsFrom 0 c))).filter fun x => x.start < x.stop := by
    have hmap : c.handlers.map (move (survivorsFrom 0 c)) = c.handlers := by
      refine List.map_congr_left (g := id) (fun x hx => ?_) |>.trans (List.map_id _)
      obtain ⟨hlt, hstop, htarget⟩ := h x hx
      simp only [move, survivorsFrom_zero, rank_range, Nat.min_eq_left hstop,
        Nat.min_eq_left htarget, Nat.min_eq_left (by omega : x.start ≤ c.instrs.length)]
      rfl
    rw [hmap]
    exact (List.filter_eq_self.mpr fun x hx => by simpa using (h x hx).1).symm
  induction rounds generalizing c with
  | zero => exact hzero h
  | succ rounds ih =>
    have hround := properRanges_round h
    have hrest : (roundsFrom (roundsAfter rounds c) (round c).1).handlers =
        ((round c).1.handlers.map
          (move (survivorsFrom (roundsAfter rounds c) (round c).1))).filter
            fun x => x.start < x.stop := by
      unfold roundsAfter
      split
      · exact ih hround
      · exact hzero hround
    have hmove : move (survivorsFrom (rounds + 1) c) =
        move (survivorsFrom (roundsAfter rounds c) (round c).1) ∘ remapHandler (keepOf c.instrs) := by
      funext x
      simp only [move, Function.comp, remapHandler, rank_succ]
    rw [roundsFrom_succ, hrest, round_handlers_proper h, hmove, ← List.map_map]
    generalize c.handlers.map (remapHandler (keepOf c.instrs)) = moved
    rw [List.filter_map, List.filter_filter, List.filter_map]
    congr 1
    refine List.filter_congr fun x _ => ?_
    -- a range that covers nothing after the round covers no survivor
    have hmono : x.stop ≤ x.start →
        rank (survivorsFrom (roundsAfter rounds c) (round c).1) x.stop ≤
          rank (survivorsFrom (roundsAfter rounds c) (round c).1) x.start := rank_mono _
    simp only [Function.comp, move]
    by_cases hlt : x.start < x.stop
    · simp [hlt]
    · have := Nat.not_lt.mpr (hmono (by omega))
      simp only [hlt, this, decide_false, Bool.false_and]

/-! ## §2 Protection -/

/-- The ranges that protect a pc, outermost first, as the function lists them. -/
def protecting (handlers : List HandlerRange) (pc : Nat) : List HandlerRange :=
  handlers.filter fun h => h.start ≤ pc ∧ pc < h.stop

/-- **A survivor keeps its protection**: the ranges of its old index, moved, in
the same order. -/
theorem protecting_survivor (rounds : Nat) {c : Code σ} (h : ProperRanges c) {j i : Nat}
    (hj : (survivorsFrom rounds c)[j]? = some i) :
    protecting (roundsFrom rounds c).handlers j =
      (protecting c.handlers i).map (move (survivorsFrom rounds c)) := by
  have hiff := lt_rank_iff (survivorsFrom_sorted rounds c) hj
  rw [handlers_roundsFrom rounds h, protecting, protecting, List.filter_filter, List.filter_map]
  congr 1
  refine List.filter_congr fun x _ => ?_
  have hstart := hiff x.start
  have hstop := hiff x.stop
  rw [Bool.eq_iff_iff]
  simp only [Function.comp, Bool.and_eq_true, decide_eq_true_eq]
  simp only [move]
  constructor
  · rintro ⟨⟨hle, hlt⟩, -⟩
    exact ⟨Nat.le_of_not_lt fun hi => absurd (hstart.mpr hi) (by omega), hstop.mp hlt⟩
  · rintro ⟨hle, hlt⟩
    have hbehind : rank (survivorsFrom rounds c) x.start ≤ j :=
      Nat.le_of_not_lt fun hj' => absurd (hstart.mp hj') (by omega)
    have := hstop.mpr hlt
    exact ⟨⟨hbehind, this⟩, by omega⟩

/-! ## §3 The nesting check -/

/-- The open ranges, innermost first: an outer one ends no earlier and has a
smaller depth. -/
def Chain (openRanges : List HandlerRange) : Prop :=
  openRanges.Pairwise fun inner outer =>
    inner.stop ≤ outer.stop ∧ outer.stackDepth < inner.stackDepth

theorem closeEnded_eq {openRanges : List HandlerRange} (h : Chain openRanges) (start : Nat) :
    closeEnded openRanges start = openRanges.filter fun x => start < x.stop := by
  unfold closeEnded
  induction openRanges with
  | nil => rfl
  | cons top rest ih =>
    obtain ⟨htop, hrest⟩ := List.pairwise_cons.mp h
    by_cases hended : top.stop ≤ start
    · rw [List.dropWhile_cons_of_pos (by simpa using hended), List.filter_cons_of_neg (by simp; omega)]
      exact ih hrest
    · rw [List.dropWhile_cons_of_neg (by simpa using hended)]
      refine (List.filter_eq_self.mpr fun x hx => ?_).symm
      rcases List.mem_cons.mp hx with rfl | hx
      · simp; omega
      · have := (htop x hx).1
        simp
        omega

theorem Chain.push {openRanges : List HandlerRange} (h : Chain openRanges) {x : HandlerRange}
    (htop : ∀ top rest, openRanges = top :: rest →
      x.stop ≤ top.stop ∧ top.stackDepth < x.stackDepth) : Chain (x :: openRanges) := by
  refine List.pairwise_cons.mpr ⟨fun y hy => ?_, h⟩
  cases openRanges with
  | nil => simp at hy
  | cons top rest =>
    obtain ⟨hstop, hdepth⟩ := htop top rest rfl
    rcases List.mem_cons.mp hy with rfl | hy
    · exact ⟨hstop, hdepth⟩
    · have := (List.pairwise_cons.mp h).1 y hy
      exact ⟨by omega, by omega⟩

theorem Chain.filter {openRanges : List HandlerRange} (h : Chain openRanges)
    (p : HandlerRange → Bool) : Chain (openRanges.filter p) := List.Pairwise.filter p h

theorem checkHandlers_cons {n prev : Nat} {x : HandlerRange} {rest openRanges : List HandlerRange}
    (hchain : Chain openRanges) :
    checkHandlers n (x :: rest) openRanges prev = .ok () ↔
      x.start < x.stop ∧ prev ≤ x.start ∧ x.target < n ∧
        (∀ top more, (openRanges.filter fun y => x.start < y.stop) = top :: more →
          x.stop ≤ top.stop ∧ top.stackDepth < x.stackDepth) ∧
        checkHandlers n rest (x :: openRanges.filter fun y => x.start < y.stop) x.start =
          .ok () := by
  conv_lhs => unfold checkHandlers
  dsimp only
  rw [closeEnded_eq hchain]
  split
  case isTrue h => simp; omega
  case isFalse h1 =>
    split
    case isTrue h => simp; omega
    case isFalse h2 =>
      split
      case isTrue h => simp; omega
      case isFalse h3 =>
        split
        case h_1 top more htop =>
          split
          case isTrue h =>
            simp only [reduceCtorEq, false_iff]
            rintro ⟨-, -, -, htops, -⟩
            have := (htops top more htop).1
            omega
          case isFalse h4 =>
            split
            case isTrue h =>
              simp only [reduceCtorEq, false_iff]
              rintro ⟨-, -, -, htops, -⟩
              have := (htops top more htop).2
              omega
            case isFalse h5 =>
              constructor
              · intro hrest
                refine ⟨by omega, by omega, by omega, fun top' more' heq => ?_, hrest⟩
                rw [htop] at heq
                cases heq
                exact ⟨by omega, by omega⟩
              · rintro ⟨-, -, -, -, hrest⟩
                exact hrest
        case h_2 hnil =>
          constructor
          · intro hrest
            refine ⟨by omega, by omega, by omega, fun top more heq => ?_, by rw [hnil]; exact hrest⟩
            rw [hnil] at heq
            cases heq
          · rintro ⟨-, -, -, -, hrest⟩
            rw [hnil] at hrest
            exact hrest

/-- What a handler list is checked against, moved by one round. The ranges open
in the new list are the images of the open ones that still cover something. -/
structure OpenMoved (keep : List Bool) (openRanges openRanges' : List HandlerRange)
    (prev prev' : Nat) : Prop where
  chain : Chain openRanges
  chain' : Chain openRanges'
  images : ∀ s, prev ≤ s → (openRanges'.filter fun y => newIndex keep s < y.stop) =
    (openRanges.map (remapHandler keep)).filter fun y => newIndex keep s < y.stop
  sorted : prev' ≤ newIndex keep prev

theorem images_closed (keep : List Bool) (openRanges : List HandlerRange) {start s : Nat}
    (h : start ≤ s) :
    (((openRanges.filter fun y => start < y.stop).map (remapHandler keep)).filter
      fun y => newIndex keep s < y.stop) =
    (openRanges.map (remapHandler keep)).filter fun y => newIndex keep s < y.stop := by
  rw [List.filter_map, List.filter_map, List.filter_filter]
  congr 1
  refine List.filter_congr fun y _ => ?_
  have hmono : y.stop ≤ start → newIndex keep y.stop ≤ newIndex keep s := fun hle =>
    newIndex_mono keep (by omega)
  simp only [Function.comp, remapHandler]
  by_cases hend : start < y.stop
  · simp [hend]
  · have := Nat.not_lt.mpr (hmono (by omega))
    simp [this]

theorem OpenMoved.skip {keep : List Bool} {openRanges openRanges' : List HandlerRange}
    {prev prev' : Nat} (h : OpenMoved keep openRanges openRanges' prev prev') {x : HandlerRange}
    (hchain : Chain (x :: openRanges.filter fun y => x.start < y.stop))
    (hprev : prev ≤ x.start) (hempty : newIndex keep x.stop ≤ newIndex keep x.start) :
    OpenMoved keep (x :: openRanges.filter fun y => x.start < y.stop) openRanges' x.start prev' where
  chain := hchain
  chain' := h.chain'
  images s hs := by
    have hmono := newIndex_mono keep hs
    have hdrop : ¬ newIndex keep s < (remapHandler keep x).stop := by
      simp only [remapHandler]
      omega
    rw [List.map_cons, List.filter_cons_of_neg (by simpa using hdrop), images_closed keep _ hs]
    exact h.images s (by omega)
  sorted := h.sorted.trans (newIndex_mono keep hprev)

theorem OpenMoved.push {keep : List Bool} {openRanges openRanges' : List HandlerRange}
    {prev prev' : Nat} (h : OpenMoved keep openRanges openRanges' prev prev') {x : HandlerRange}
    (hchain : Chain (x :: openRanges.filter fun y => x.start < y.stop)) (hprev : prev ≤ x.start)
    (hchain' : Chain (remapHandler keep x ::
      openRanges'.filter fun y => newIndex keep x.start < y.stop)) :
    OpenMoved keep (x :: openRanges.filter fun y => x.start < y.stop)
      (remapHandler keep x :: openRanges'.filter fun y => newIndex keep x.start < y.stop)
      x.start (newIndex keep x.start) where
  chain := hchain
  chain' := hchain'
  images s hs := by
    have hmono := newIndex_mono keep hs
    have htwice : ((openRanges'.filter fun y => newIndex keep x.start < y.stop).filter
        fun y => newIndex keep s < y.stop) = openRanges'.filter fun y => newIndex keep s < y.stop := by
      rw [List.filter_filter]
      refine List.filter_congr fun y _ => ?_
      rw [Bool.eq_iff_iff]
      simp only [Bool.and_eq_true, decide_eq_true_eq]
      omega
    rw [List.map_cons, List.filter_cons, List.filter_cons, htwice, h.images s (by omega),
      images_closed keep _ hs]
  sorted := Nat.le_refl _

/-- **The handler check survives a round**, when every range that still covers
something keeps its entry in the body. -/
theorem checkHandlers_moved {keep : List Bool} {n n' : Nat} {handlers : List HandlerRange}
    (hentry : ∀ x ∈ handlers, newIndex keep x.start < newIndex keep x.stop →
      newIndex keep x.target < n') {openRanges openRanges' : List HandlerRange} {prev prev' : Nat}
    (hopen : OpenMoved keep openRanges openRanges' prev prev')
    (h : checkHandlers n handlers openRanges prev = .ok ()) :
    checkHandlers n' ((handlers.map (remapHandler keep)).filter fun x => x.start < x.stop)
      openRanges' prev' = .ok () := by
  induction handlers generalizing openRanges openRanges' prev prev' with
  | nil => rfl
  | cons x rest ih =>
    obtain ⟨-, hprev, -, htop, hrest⟩ := (checkHandlers_cons hopen.chain).mp h
    have hchain := (hopen.chain.filter _).push htop
    have hentries := fun y hy => hentry y (List.mem_cons_of_mem x hy)
    rw [List.map_cons]
    by_cases hempty : newIndex keep x.start < newIndex keep x.stop
    · -- what `x` nests in is open on the other side too
      have hinside := (List.pairwise_cons.mp hchain).1
      have htop' (top : HandlerRange) (more : List HandlerRange)
          (heq : (openRanges'.filter fun y => newIndex keep x.start < y.stop) = top :: more) :
          newIndex keep x.stop ≤ top.stop ∧ top.stackDepth < x.stackDepth := by
        have hmem : top ∈ openRanges'.filter fun y => newIndex keep x.start < y.stop := by
          rw [heq]
          exact List.mem_cons_self
        rw [hopen.images x.start hprev, ← images_closed keep _ (Nat.le_refl x.start)] at hmem
        obtain ⟨y, hy, rfl⟩ := List.mem_map.mp (List.mem_filter.mp hmem).1
        exact ⟨newIndex_mono keep (hinside y hy).1, (hinside y hy).2⟩
      have hchain' := (hopen.chain'.filter _).push (x := remapHandler keep x) htop'
      rw [List.filter_cons_of_pos (a := remapHandler keep x) (decide_eq_true hempty)]
      refine (checkHandlers_cons hopen.chain').mpr ⟨hempty, ?_, ?_, htop', ?_⟩
      · exact hopen.sorted.trans (newIndex_mono keep hprev)
      · exact hentry x List.mem_cons_self hempty
      · exact ih hentries (hopen.push hchain hprev hchain') hrest
    · rw [List.filter_cons_of_neg (a := remapHandler keep x) fun h => hempty (of_decide_eq_true h)]
      exact ih hentries (hopen.skip hchain hprev (Nat.le_of_not_lt hempty)) hrest

/-! ## §4 A sound round -/

instance (instrs : List Instr) (k : Nat) : Decidable (Deletable instrs k) :=
  decidable_of_iff _ deletable_iff

/-- The words from `target` up to `t` are branches to the next header, and `t`
stays. -/
def EntryAt (instrs : List Instr) (target t : Nat) : Prop :=
  target ≤ t ∧ t < instrs.length ∧ ¬ Deletable instrs t ∧
    ∀ k, target ≤ k → k < t → deadBranch (widths instrs) instrs k = true

/-- What a round needs to keep a valid function valid: payload words that it does
not rewire and that no branch is threaded through, no prefix in front of a word
that goes or changes, and for every range that covers something afterwards an
entry that stays, up to branches that go nowhere. -/
structure Sound (c : Code σ) : Prop where
  size : c.instrs.length < 2 ^ 32
  payload : PayloadKept c.instrs
  targets : TargetsClear c.instrs
  prefixes : ∀ (pc width : Nat) (mask aHi bHi cHi : BitVec 8), AtHeader c.instrs pc →
    WideOp.tryDecode (c.instrs.drop pc) = .ok (.regExt mask aHi bHi cHi, width) →
      ¬ Deletable c.instrs (pc + width) ∧ ¬ Folds c.instrs (pc + width)
  entries : ∀ h ∈ c.handlers, (∃ i, h.start ≤ i ∧ i < h.stop ∧ ¬ Deletable c.instrs i) →
    ∃ t, EntryAt c.instrs h.target t

theorem not_isPayload_of_narrow {instrs : List Instr} (hnarrow : ∀ w ∈ instrs, w.op ≠ some .wide)
    (i : Nat) : ¬ IsPayload instrs i := by
  intro hpayload
  have hlt : i < instrs.length := by
    have hlt := (List.getElem?_eq_some_iff.mp hpayload).1
    rwa [length_widths] at hlt
  obtain ⟨pc, d, hpc, hd, rfl⟩ := exists_header hlt
  have hlt' : pc < instrs.length := by omega
  rw [widthAt_narrow (List.getElem?_eq_getElem hlt') (hnarrow _ (List.getElem_mem hlt'))] at hd
  obtain rfl : d = 0 := by omega
  exact (atHeader_iff hlt').mp hpc hpayload

theorem sound_of_narrow {c : Code σ} (hsize : c.instrs.length < 2 ^ 32)
    (hnarrow : ∀ w ∈ c.instrs, w.op ≠ some .wide)
    (hentries : ∀ h ∈ c.handlers, ∃ t, EntryAt c.instrs h.target t) : Sound c where
  size := hsize
  payload i _ hpayload := absurd hpayload (not_isPayload_of_narrow hnarrow i)
  targets _ _ t _ _ _ hjump := not_isPayload_of_narrow hnarrow t hjump.1
  prefixes pc width mask aHi bHi cHi _ hdec := by
    obtain ⟨header, rest, hcons, hop, -⟩ := WideOp.tryDecode_ok hdec
    have hmem : header ∈ c.instrs := List.mem_of_mem_drop (hcons ▸ List.mem_cons_self)
    exact absurd hop (hnarrow header hmem)
  entries h hh _ := hentries h hh

theorem Sound.prefixesHold {c : Code σ} (h : Sound c) : PrefixesHold c.instrs := by
  intro pc width mask aHi bHi cHi hheader hdec
  obtain ⟨hstays, hliteral⟩ := h.prefixes pc width mask aHi bHi cHi hheader hdec
  refine ⟨fun hdel => hstays (deletable_iff.mp hdel), ?_⟩
  rcases foldedOf_cases c.instrs (pc + width) with hsame | ⟨word, hfold, -, -, hd1, -⟩
  · exact hsame
  · -- a rewritten word starts a triple that folds
    exfalso
    rcases deletable_iff.mp hd1 with hdead | ⟨j, hj, hjk⟩
    · obtain ⟨w, hw, hskip⟩ := isSkip_of_deadBranch hdead
      obtain ⟨_, w2, _, -, h2, -, -, hop2, -⟩ := hfold.ops
      rw [hw, Option.some.injEq] at h2
      rw [h2, hop2] at hskip
      rcases hskip with h | h | h <;> cases h
    · obtain ⟨-, word', hfold'⟩ := id hj
      have hcase : j = pc + width ∨ j + 1 = pc + width := by omega
      rcases hcase with rfl | hj'
      · exact hliteral hj
      · have := folded_disjoint hfold' hfold (by omega)
        omega

theorem EntryAt.newIndex_eq {instrs : List Instr} {target t : Nat} (h : EntryAt instrs target t) :
    newIndex (keepOf instrs) target = newIndex (keepOf instrs) t := by
  obtain ⟨hle, -, -, hdead⟩ := h
  induction t, hle using Nat.le_induction with
  | base => rfl
  | succ t hle ih =>
    have hdel := deletable_iff.mpr (Or.inl (hdead t hle (by omega)))
    rw [newIndex_succ, hdel, ih (fun k h1 h2 => hdead k h1 (by omega))]
    simp

theorem EntryAt.target_lt {instrs : List Instr} {target t : Nat} (h : EntryAt instrs target t) :
    newIndex (keepOf instrs) target < keptCount instrs := by
  obtain ⟨-, hlt, hstays, -⟩ := id h
  rw [h.newIndex_eq, keptCount]
  exact (newIndex_lt_iff ((kept_iff hlt).mpr hstays) _).mpr hlt

theorem exists_covered {instrs : List Instr} {start stop : Nat}
    (h : newIndex (keepOf instrs) start < newIndex (keepOf instrs) stop) :
    ∃ i, start ≤ i ∧ i < stop ∧ ¬ Deletable instrs i := by
  obtain ⟨i, hi, hkeep, hindex⟩ := exists_kept h
  refine ⟨i, ?_, hi, fun hdel => ?_⟩
  · by_contra hlt
    have := (newIndex_lt_iff hkeep start).mpr (by omega)
    omega
  · rw [deletable_iff.mpr hdel] at hkeep
    cases hkeep

/-! ## §5 The whole pass -/

variable (fb : FunctionBytecode)

def code : Code (Nat × Nat) := ⟨fb.instrs, fb.spans, fb.handlers⟩

def withCode (c : Code (Nat × Nat)) : FunctionBytecode :=
  { fb with
    instrs := c.instrs
    spans := c.spans
    handlers := c.handlers }

/-- The function after `peephole::optimize`. -/
def optimized : FunctionBytecode := withCode fb (optimize (code fb))

/-- The words of the function that `optimize` keeps, by their old index. -/
def survivors : List Nat := survivorsFrom maxRounds (code fb)

variable {fb}

theorem validate_iff : fb.validate = .ok () ↔ checkMaxRegs fb = .ok () ∧
    checkHandlers fb.instrs.length fb.handlers [] 0 = .ok () ∧
      checkOperandContract fb = .ok () := by
  simp only [FunctionBytecode.validate, bind, Except.bind]
  cases checkMaxRegs fb with
  | error e => simp
  | ok _ =>
    cases checkHandlers fb.instrs.length fb.handlers [] 0 with
    | error e => simp
    | ok _ => simp

/-- **A sound round keeps a valid function valid.** -/
theorem validate_round {c : Code (Nat × Nat)} (hproper : ProperRanges c) (hsound : Sound c)
    (h : (withCode fb c).validate = .ok ()) : (withCode fb (round c).1).validate = .ok () := by
  obtain ⟨hregs, hhandlers, hcontract⟩ := validate_iff.mp h
  refine validate_iff.mpr ⟨hregs, ?_, ?_⟩
  · have hentry (x : HandlerRange) (hx : x ∈ c.handlers)
        (hlt : newIndex (keepOf c.instrs) x.start < newIndex (keepOf c.instrs) x.stop) :
        newIndex (keepOf c.instrs) x.target < (round c).1.instrs.length := by
      obtain ⟨t, ht⟩ := hsound.entries x hx (exists_covered hlt)
      rw [length_round]
      exact ht.target_lt
    have hopen : OpenMoved (keepOf c.instrs) [] [] 0 0 :=
      ⟨List.Pairwise.nil, List.Pairwise.nil, fun _ _ => rfl, Nat.zero_le _⟩
    have hmoved := checkHandlers_moved hentry hopen hhandlers
    rw [← round_handlers_proper hproper] at hmoved
    exact hmoved
  · have hframe : SameFrame (withCode fb c) (withCode fb (round c).1) :=
      ⟨round_instrs c, rfl, rfl⟩
    exact checkOperandContract_round hframe hsound.size hsound.payload hsound.targets
      hsound.prefixesHold hcontract

theorem validate_roundsFrom (rounds : Nat) {c : Code (Nat × Nat)} (hproper : ProperRanges c)
    (hsound : RoundsMeet Sound rounds c) (h : (withCode fb c).validate = .ok ()) :
    (withCode fb (roundsFrom rounds c)).validate = .ok () := by
  induction rounds generalizing c with
  | zero => exact h
  | succ rounds ih =>
    have hround := validate_round hproper hsound.1 h
    rw [roundsFrom]
    split
    case isTrue hchanged => exact ih (properRanges_round hproper) (hsound.2 hchanged) hround
    case isFalse => exact hround

/-- The entry at `target` denotes the first survivor from there on; the words in
between were branches. -/
def EntryDenotes (instrs : List Instr) (survivors : List Nat) (target : Nat) : Prop :=
  ∃ t, survivors[rank survivors target]? = some t ∧ target ≤ t ∧
    ∀ k, target ≤ k → k < t → ∃ w, instrs[k]? = some w ∧ IsSkip w.op

theorem Deletable.cases {instrs : List Instr} {k : Nat} (h : Deletable instrs k) :
    (∃ w, instrs[k]? = some w ∧ IsSkip w.op) ∨
      ∃ j w, j < k ∧ instrs[j]? = some w ∧ ¬ IsSkip w.op ∧ ¬ Deletable instrs j ∧
        ∀ i, j < i → i < k → Deletable instrs i := by
  rcases h with hdead | ⟨j, hfolds, hk⟩
  · exact Or.inl (isSkip_of_deadBranch hdead)
  · obtain ⟨-, word, hfold⟩ := id hfolds
    obtain ⟨w1, _, _, h1, -, -, hop1, -⟩ := hfold.ops
    have hskip : ¬ IsSkip w1.op := by
      rw [hop1]
      rintro (h | h | h) <;> cases h
    refine Or.inr ⟨j, w1, by omega, h1, hskip, ?_, fun i hji hik => Or.inr ⟨j, hfolds, by omega⟩⟩
    rintro (hdead | ⟨j', ⟨-, word', hfold'⟩, hj'⟩)
    · obtain ⟨w, hw, hop⟩ := isSkip_of_deadBranch hdead
      rw [h1, Option.some.injEq] at hw
      exact hskip (hw ▸ hop)
    · have := folded_disjoint hfold' hfold (by omega)
      omega

theorem entryDenotes_zero {c : Code σ} {target : Nat} (h : target < c.instrs.length) :
    EntryDenotes c.instrs (survivorsFrom 0 c) target := by
  refine ⟨target, ?_, Nat.le_refl _, fun k h1 h2 => by omega⟩
  rw [survivorsFrom_zero, rank_range, Nat.min_eq_left (by omega), List.getElem?_range h]

theorem entryDenotes_succ {rounds : Nat} {c : Code σ} {target t : Nat}
    (hentry : EntryAt c.instrs target t)
    (h : EntryDenotes (round c).1.instrs (survivorsFrom (roundsAfter rounds c) (round c).1)
      (newIndex (keepOf c.instrs) target)) :
    EntryDenotes c.instrs (survivorsFrom (rounds + 1) c) target := by
  obtain ⟨t₁, hget, hle, hskips⟩ := h
  have hlt₁ := mem_survivorsFrom_lt (List.mem_of_getElem? hget)
  rw [length_round, keptCount] at hlt₁
  obtain ⟨i, hi, hkeep, rfl⟩ := exists_kept hlt₁
  have htarget : target ≤ i := by
    by_contra hlt
    have := (newIndex_lt_iff hkeep target).mpr (by omega)
    omega
  refine ⟨i, ?_, htarget, fun k htk hki => ?_⟩
  · rw [rank_succ]
    exact survivorsFrom_succ_mk hkeep hget
  · -- a word that stays was skipped later, with the operation it has here
    have hlater (j : Nat) (htj : target ≤ j) (hji : j < i) (hstays : ¬ Deletable c.instrs j) :
        ∃ w, c.instrs[j]? = some w ∧ IsSkip w.op := by
      have hkeepj := (kept_iff (by omega)).mpr hstays
      obtain ⟨w', hw', hop⟩ := hskips _ (newIndex_mono _ htj)
        ((newIndex_lt_iff hkeepj i).mpr hji)
      have hsame := op_round c hkeepj
      rw [hw', List.getElem?_eq_getElem (by omega)] at hsame
      have hop' : w'.op = c.instrs[j].op := by simpa using hsame
      exact ⟨_, List.getElem?_eq_getElem (by omega), hop' ▸ hop⟩
    obtain ⟨htargett, -, hstays', hdead⟩ := hentry
    by_cases hkt : k < t
    · exact isSkip_of_deadBranch (hdead k htk hkt)
    by_cases hdel : Deletable c.instrs k
    · rcases hdel.cases with hskip | ⟨j, w, hjk, hw, hnot, hstays, hbetween⟩
      · exact hskip
      · -- its literal would have been skipped
        have htj : t ≤ j := by
          by_contra hlt
          by_cases heq : t = k
          · exact hstays' (heq ▸ hdel)
          · exact hstays' (hbetween t (by omega) (by omega))
        obtain ⟨w', hw', hop⟩ := hlater j (by omega) (by omega) hstays
        rw [hw, Option.some.injEq] at hw'
        exact absurd (hw' ▸ hop) hnot
    · exact hlater k htk hki hdel

/-- **An entry stays with its instruction** while every round is sound. -/
theorem entry_roundsFrom (rounds : Nat) {c : Code σ} (hproper : ProperRanges c)
    (hsound : RoundsMeet Sound rounds c) {x : HandlerRange} (hx : x ∈ c.handlers)
    (hinside : rounds = 0 → x.target < c.instrs.length)
    (hcovers : rank (survivorsFrom rounds c) x.start < rank (survivorsFrom rounds c) x.stop) :
    EntryDenotes c.instrs (survivorsFrom rounds c) x.target := by
  induction rounds generalizing c x with
  | zero => exact entryDenotes_zero (hinside rfl)
  | succ rounds ih =>
    rw [rank_succ, rank_succ] at hcovers
    have hlt : newIndex (keepOf c.instrs) x.start < newIndex (keepOf c.instrs) x.stop := by
      by_contra hle
      have := rank_mono (survivorsFrom (roundsAfter rounds c) (round c).1) (Nat.le_of_not_lt hle)
      omega
    obtain ⟨t, hentry⟩ := hsound.1.entries x hx (exists_covered hlt)
    have hx' : remapHandler (keepOf c.instrs) x ∈ (round c).1.handlers := by
      rw [round_handlers_proper hproper]
      exact List.mem_filter.mpr ⟨List.mem_map_of_mem hx, decide_eq_true hlt⟩
    have htarget : newIndex (keepOf c.instrs) x.target < (round c).1.instrs.length := by
      rw [length_round]
      exact hentry.target_lt
    refine entryDenotes_succ hentry ?_
    have hrest := hsound.rest
    unfold roundsAfter at hcovers hrest ⊢
    split
    case isTrue hchanged =>
      rw [if_pos hchanged] at hcovers hrest
      exact ih (properRanges_round hproper) hrest hx' (fun _ => htarget) hcovers
    case isFalse hsame => exact entryDenotes_zero htarget

/-- The handlers and the validity of a function through the pass: a survivor has
its old operation and its old ranges, in order; the entry of a range that still
covers something stays with its instruction; a valid function stays valid. -/
structure HandlersKept (fb : FunctionBytecode) : Prop where
  operation : ∀ j i : Nat, (survivors fb)[j]? = some i →
    (optimized fb).instrs[j]?.map Instr.op = fb.instrs[i]?.map Instr.op
  protection : ∀ j i : Nat, (survivors fb)[j]? = some i →
    protecting (optimized fb).handlers j = (protecting fb.handlers i).map (move (survivors fb))
  entries : ∀ h ∈ fb.handlers, rank (survivors fb) h.start < rank (survivors fb) h.stop →
    EntryDenotes fb.instrs (survivors fb) h.target
  valid : fb.validate = .ok () → (optimized fb).validate = .ok ()

def guardedThrow : FunctionBytecode where
  maxRegs := 1
  instrs := [Instr.new .loadInt 0 0 1, Instr.newImm24 .jump 2, Instr.new .throwOp 0 0 0,
    Instr.new .returnOp 0 0 0]
  consts := []
  handlers := [⟨0, 3, 3, 0⟩]
  spans := List.replicate 4 (0, 0)

/-- `if (x) {} return x` with `x` in register 300. -/
def emptyIf : FunctionBytecode where
  maxRegs := 301
  instrs := (WideOp.regExt 1 1 0 0).encode ++
    [Instr.newImm16 .jumpIfFalse 44 4, Instr.newImm24 .jump 4] ++
    (WideOp.regExt 1 1 0 0).encode ++ [Instr.new .returnOp 44 0 0]
  consts := []
  handlers := []
  spans := List.replicate 7 (0, 0)

end V12.Bccompiler
