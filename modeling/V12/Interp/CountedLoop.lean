/-
V12.Interp.CountedLoop — what `find_counted_loop` reports, against the dispatch
loop that executes the function.

The analysis makes one walk over the words below the header (`Walk`). Where the
dispatch loop runs no prefixed instruction from the header to the backedge
(`Unprefixed`), the words of the walk are the instructions it runs there (`body`,
read off `opStarts`), and a report names the shape of these. A `RegExt` prefix
and its narrow word are one instruction for the dispatch loop and two for the
walk, which then reads the narrow word by itself: of such loops nothing is said
here. The walk looks at no branch from outside either.
-/
import V12.Interp.ValidateTheorems

namespace V12.Interp

open V12.Bytecode

/-! ## §1 The words of the pattern -/

/-- A conditional branch whose target is not in `[header, pc)`. -/
def branchesOutAt (instrs : List Instr) (header : BitVec 32) (pc : Nat) : Bool :=
  match instrs[pc]? with
  | some instr =>
    (decide (instr.op = some .jumpIfFalse) || decide (instr.op = some .jumpIfTrue)) &&
      branchesOut header pc instr
  | none => false

/-- The register of an `Add` or `Sub` of the canonical shape. -/
def selfUpdateAt (instrs : List Instr) (pc : Nat) : Option (BitVec 8) :=
  match instrs[pc]? with
  | some instr =>
    if instr.op = some .add ∨ instr.op = some .sub then selfUpdate instr else none
  | none => none

def ClosesAt (instrs : List Instr) (header : BitVec 32) (pc : Nat) : Prop :=
  ∃ instr, instrs[pc]? = some instr ∧ instr.op = some .jump ∧ instr.imm24 = header

/-- An instruction the walk goes past: neither a loop header nor the jump that closes. -/
def PassedAt (instrs : List Instr) (header : BitVec 32) (pc : Nat) : Prop :=
  ∃ instr op, instrs[pc]? = some instr ∧ instr.op = some op ∧ op ≠ .loopHeader ∧
    ¬(op = .jump ∧ instr.imm24 = header)

/-- The walk from `pc`: the pcs it goes past, and the pc of the backedge. -/
inductive Walk (instrs : List Instr) (header : BitVec 32) : Nat → List Nat → Nat → Prop where
  | closed {pc : Nat} (here : ClosesAt instrs header pc) : Walk instrs header pc [] pc
  | passed {pc back : Nat} {visited : List Nat} (here : PassedAt instrs header pc)
      (rest : Walk instrs header (pc + instrWidth instrs pc) visited back) :
      Walk instrs header pc (pc :: visited) back

variable {instrs : List Instr} {header : BitVec 32} {pc back : Nat} {visited : List Nat}
variable {instr : Instr} {fuel start : Nat}

theorem ClosesAt.lt (h : ClosesAt instrs header pc) : pc < instrs.length := by
  obtain ⟨instr, hget, -, -⟩ := h
  exact (List.getElem?_eq_some_iff.mp hget).1

theorem PassedAt.lt (h : PassedAt instrs header pc) : pc < instrs.length := by
  obtain ⟨instr, op, hget, -⟩ := h
  exact (List.getElem?_eq_some_iff.mp hget).1

theorem instrWidth_pos (hlt : pc < instrs.length) : 0 < instrWidth instrs pc := by
  have hget : instrs[pc]? = some instrs[pc] := List.getElem?_eq_getElem hlt
  have hdrop : instrs.drop pc = instrs[pc] :: instrs.drop (pc + 1) := drop_eq_cons hget
  unfold instrWidth
  rw [hget, Nat.min_eq_left (by omega), hdrop]
  simp only
  split
  · split
    · rename_i wide width hdec
      obtain ⟨-, hlen, -⟩ := WideOp.tryDecode_layout hdec
      have := WideOp.encode_length_pos wide
      omega
    · exact Nat.one_pos
  · exact Nat.one_pos

theorem Walk.le (h : Walk instrs header pc visited back) : pc ≤ back := by
  induction h with
  | closed => exact Nat.le_refl _
  | passed _ _ ih => omega

theorem Walk.sorted (h : Walk instrs header pc visited back) :
    visited.Pairwise (· < ·) ∧ ∀ q ∈ visited, pc ≤ q := by
  induction h with
  | closed => simp
  | passed here rest ih =>
    have hpos := instrWidth_pos here.lt
    refine ⟨List.pairwise_cons.mpr ⟨fun q hq => ?_, ih.1⟩, fun q hq => ?_⟩
    · have := ih.2 q hq
      omega
    · rcases List.mem_cons.mp hq with rfl | hq
      · exact Nat.le_refl _
      · have := ih.2 q hq
        omega

/-! ## §2 The source's loop is the walk -/

theorem visit_eq (hget : instrs[pc]? = some instr) (sites : LoopSites) :
    sites.visit header pc instr =
      ⟨sites.exit.or (if branchesOutAt instrs header pc then some (BitVec.ofNat 32 pc) else none),
        sites.inductionReg.or (selfUpdateAt instrs pc)⟩ := by
  obtain ⟨exit, reg⟩ := sites
  simp only [LoopSites.visit, branchesOutAt, selfUpdateAt, hget]
  split
  · rename_i hop
    cases branchesOut header pc instr <;> simp [hop]
  · rename_i hop
    cases branchesOut header pc instr <;> simp [hop]
  · rename_i hop
    simp [hop]
  · rename_i hop
    simp [hop]
  · rename_i hfalse htrue hadd hsub
    have hfalse : instr.op ≠ some .jumpIfFalse := hfalse
    have htrue : instr.op ≠ some .jumpIfTrue := htrue
    have hadd : instr.op ≠ some .add := hadd
    have hsub : instr.op ≠ some .sub := hsub
    simp [hfalse, htrue, hadd, hsub]

/-- The report of a walk that started with `sites`. -/
def reportOf (instrs : List Instr) (header : BitVec 32) (sites : LoopSites) (visited : List Nat)
    (back : Nat) : CountedLoop :=
  ⟨header, sites.exit.or ((visited.find? (branchesOutAt instrs header)).map (BitVec.ofNat 32)),
    sites.inductionReg.or (visited.findSome? (selfUpdateAt instrs)), BitVec.ofNat 32 back⟩

theorem reportOf_cons (hget : instrs[pc]? = some instr) (sites : LoopSites) :
    reportOf instrs header sites (pc :: visited) back =
      reportOf instrs header (sites.visit header pc instr) visited back := by
  rw [visit_eq hget]
  simp only [reportOf, List.find?_cons, List.findSome?_cons]
  cases hb : branchesOutAt instrs header pc <;> cases hs : selfUpdateAt instrs pc <;>
    cases sites.exit <;> cases sites.inductionReg <;> simp

/-- **The loop is the walk.** With a word of fuel for each word left, the source's loop reports
exactly what a walk to a backedge has seen. -/
theorem findCountedLoopFrom_eq_some {sites : LoopSites} {l : CountedLoop}
    (h : findCountedLoopFrom instrs header fuel pc sites = some l) :
    ∃ visited back, Walk instrs header pc visited back ∧
      l = reportOf instrs header sites visited back := by
  induction fuel generalizing pc sites with
  | zero => exact absurd h (by simp [findCountedLoopFrom])
  | succ fuel ih =>
    unfold findCountedLoopFrom at h
    cases hget : instrs[pc]? with
    | none => simp [hget] at h
    | some instr =>
      rw [hget] at h
      simp only at h
      split at h
      · exact absurd h (by simp)
      · exact absurd h (by simp)
      · rename_i op hheader hop
        by_cases hclose : op = .jump ∧ instr.imm24 = header
        · rw [if_pos hclose] at h
          obtain ⟨rfl, himm⟩ := hclose
          refine ⟨[], pc, .closed ⟨instr, hget, hop, himm⟩, ?_⟩
          simp only [Option.some.injEq] at h
          simp [← h, reportOf]
        · rw [if_neg hclose] at h
          split at h
          · exact absurd h (by simp)
          · obtain ⟨visited, back, hwalk, rfl⟩ := ih h
            have hpass : PassedAt instrs header pc :=
              ⟨instr, op, hget, hop, fun heq => hheader (by rw [heq]), hclose⟩
            exact ⟨pc :: visited, back, .passed hpass hwalk, (reportOf_cons hget sites).symm⟩

/-! ## §3 The walk among the instructions that run -/

-- The equations are made here, ahead of the proofs below that all ask for them.
attribute [local simp] opStartsFrom

/-- What is dispatched at `pc` has no prefix. -/
def PlainAt (instrs : List Instr) (pc : Nat) : Prop :=
  ∃ d, dispatch instrs pc = some d ∧ ∀ n, d = .narrow n → n.width = 1

/-- From the header to `back` the dispatch loop runs instructions without a prefix. -/
structure Unprefixed (instrs : List Instr) (header back : Nat) : Prop where
  starts : header ∈ opStarts instrs
  plain : ∀ pc ∈ opStarts instrs, header ≤ pc → pc < back → PlainAt instrs pc

theorem dispatch_narrow {op : Opcode} (hget : instrs[pc]? = some instr) (hop : instr.op = some op)
    (hwide : op ≠ .wide) :
    dispatch instrs pc = some (.narrow ⟨op, mergeSlot none instr 0, mergeSlot none instr 1,
      mergeSlot none instr 2, 1, instr⟩) := by
  unfold dispatch
  rw [decodeInstr_narrow hget hop hwide]
  cases op <;> first | rfl | exact absurd rfl hwide

/-- What is decoded is the word itself, or a wide word, alone or in front of the narrow one. -/
theorem decodeInstr_cases {d : Decoded} (h : decodeInstr instrs pc = some d) :
    ∃ instr, instrs[pc]? = some instr ∧
      (instr.op = some .wide ∧ (d.width = 3 ∨ d.width = 1 ∧ d.op = .wide) ∨
        ∃ op, instr.op = some op ∧ op ≠ .wide ∧
          d = ⟨op, mergeSlot none instr 0, mergeSlot none instr 1, mergeSlot none instr 2, 1,
            instr⟩) := by
  unfold decodeInstr at h
  cases hget : instrs[pc]? with
  | none => simp [hget] at h
  | some instr =>
    rw [hget] at h
    refine ⟨instr, rfl, ?_⟩
    simp only at h
    split at h
    · simp at h
    · rename_i hop
      refine .inl ⟨hop, ?_⟩
      split at h
      · split at h
        · split at h
          · simp at h
          · split at h
            · simp at h
            · simp only [Option.some.injEq] at h
              subst h
              exact .inl rfl
        · simp at h
      · simp only [Option.some.injEq] at h
        subst h
        exact .inr ⟨rfl, rfl⟩
    · rename_i op hne hop
      simp only [Option.some.injEq] at h
      subst h
      exact .inr ⟨op, hop, hne, rfl⟩

/-- What the dispatch loop executes comes from what is decoded. -/
theorem dispatch_cases {d : Dispatched} (h : dispatch instrs pc = some d) :
    ∃ dec, decodeInstr instrs pc = some dec ∧
      (dec.op ≠ .wide ∧ d = .narrow dec ∨ dec.op = .wide ∧ ∃ op width, d = .wide op width ∧
        WideOp.tryDecode (instrs.drop pc) = .ok (op, width)) := by
  unfold dispatch at h
  cases hdec : decodeInstr instrs pc with
  | none => simp [hdec] at h
  | some dec =>
    rw [hdec] at h
    refine ⟨dec, rfl, ?_⟩
    simp only at h
    split at h
    · rename_i hwide
      split at h
      · simp at h
      · rename_i op width _ hok
        exact .inr ⟨hwide, op, width, (Option.some.inj h).symm, hok⟩
      · simp at h
    · rename_i hwide
      exact .inl ⟨hwide, (Option.some.inj h).symm⟩

theorem dispatch_one {d : Decoded} (h : dispatch instrs pc = some (.narrow d))
    (hone : d.width = 1) :
    ∃ instr, instrs[pc]? = some instr ∧ instr.op = some d.op ∧ d.op ≠ .wide ∧
      d = ⟨d.op, mergeSlot none instr 0, mergeSlot none instr 1, mergeSlot none instr 2, 1,
        instr⟩ := by
  obtain ⟨dec, hdec, ⟨hwide, heq⟩ | ⟨-, op, width, heq, -⟩⟩ := dispatch_cases h
  · obtain rfl := Dispatched.narrow.inj heq
    obtain ⟨instr, hget, ⟨-, hthree | ⟨-, hop⟩⟩ | ⟨op, hop, -, rfl⟩⟩ := decodeInstr_cases hdec
    · omega
    · exact absurd hop hwide
    · exact ⟨instr, hget, hop, hwide, rfl⟩
  · cases heq

theorem dispatch_wide {op : WideOp} {width : Nat}
    (h : dispatch instrs pc = some (.wide op width)) :
    ∃ instr, instrs[pc]? = some instr ∧ instr.op = some .wide ∧
      WideOp.tryDecode (instrs.drop pc) = .ok (op, width) := by
  obtain ⟨dec, hdec, ⟨-, heq⟩ | ⟨hwide, op', width', heq, hok⟩⟩ := dispatch_cases h
  · cases heq
  · obtain ⟨rfl, rfl⟩ := Dispatched.wide.inj heq
    obtain ⟨instr, hget, ⟨hop, -⟩ | ⟨op', -, hne, rfl⟩⟩ := decodeInstr_cases hdec
    · exact ⟨instr, hget, hop, hok⟩
    · exact absurd hwide hne

/-- Without a prefix the analysis and the dispatch loop step by the same width. -/
theorem PlainAt.width (h : PlainAt instrs pc) :
    ∃ d, dispatch instrs pc = some d ∧ d.width = instrWidth instrs pc := by
  obtain ⟨d, hd, hplain⟩ := h
  refine ⟨d, hd, ?_⟩
  cases d with
  | narrow n =>
    obtain ⟨instr, hget, hop, hwide, -⟩ := dispatch_one hd (hplain n rfl)
    have hone : instrWidth instrs pc = 1 := by
      unfold instrWidth
      rw [hget]
      simp only
      split
      · rename_i heq
        exact absurd (Option.some.inj (hop.symm.trans heq)) hwide
      · rfl
    rw [hone]
    exact hplain n rfl
  | wide op width =>
    obtain ⟨instr, hget, hop, hdec⟩ := dispatch_wide hd
    have hlt : pc < instrs.length := (List.getElem?_eq_some_iff.mp hget).1
    unfold instrWidth
    rw [hget, Nat.min_eq_left (Nat.le_of_lt hlt)]
    simp only [hop, hdec]
    rfl

theorem le_of_mem_opStartsFrom (h : pc ∈ opStartsFrom instrs fuel start) : start ≤ pc := by
  induction fuel generalizing start with
  | zero => simp at h
  | succ fuel ih =>
    unfold opStartsFrom at h
    split at h
    · split at h
      · rcases List.mem_cons.mp h with rfl | h
        · exact Nat.le_refl _
        · exact Nat.le_trans (Nat.le_add_right _ _) (ih h)
      · exact Nat.le_of_eq (List.mem_singleton.mp h).symm
    · simp at h

theorem opStartsFrom_succ {d : Dispatched} (fuel : Nat) (hlt : pc < instrs.length)
    (hd : dispatch instrs pc = some d) :
    opStartsFrom instrs (fuel + 1) pc = pc :: opStartsFrom instrs fuel (pc + d.width) := by
  rw [opStartsFrom, if_pos hlt, hd]

theorem dispatch_width_pos {d : Dispatched} (h : dispatch instrs pc = some d) : 0 < d.width := by
  obtain ⟨dec, hdec, ⟨-, rfl⟩ | ⟨-, op, width, rfl, hok⟩⟩ := dispatch_cases h
  · obtain ⟨instr, -, ⟨-, hthree | ⟨hone, -⟩⟩ | ⟨op, -, -, rfl⟩⟩ := decodeInstr_cases hdec
    · exact Nat.lt_of_lt_of_eq (Nat.zero_lt_succ 2) hthree.symm
    · exact Nat.lt_of_lt_of_eq Nat.one_pos hone.symm
    · exact Nat.one_pos
  · obtain ⟨dec', hget, -⟩ := decodeInstr_cases hdec
    rw [drop_eq_cons hget] at hok
    obtain ⟨-, hlen, -⟩ := WideOp.tryDecode_layout hok
    have hpos := WideOp.encode_length_pos op
    rw [Dispatched.width]
    omega

/-- The starts from one of them on are the end of the list, and those in front of it lie below. -/
theorem opStartsFrom_tail (h : pc ∈ opStartsFrom instrs fuel start)
    (hfuel : instrs.length ≤ start + fuel) :
    ∃ before rest, opStartsFrom instrs fuel start = before ++ opStartsFrom instrs rest pc ∧
      instrs.length ≤ pc + rest ∧ ∀ q ∈ before, q < pc := by
  induction fuel generalizing start with
  | zero => simp at h
  | succ fuel ih =>
    by_cases heq : pc = start
    · subst heq
      exact ⟨[], fuel + 1, rfl, hfuel, fun _ hq => by simp at hq⟩
    · by_cases hlt : start < instrs.length
      · cases hd : dispatch instrs start with
        | none =>
          rw [opStartsFrom, if_pos hlt, hd] at h
          exact absurd (List.mem_singleton.mp h) heq
        | some d =>
          have hpos := dispatch_width_pos hd
          rw [opStartsFrom_succ _ hlt hd] at h ⊢
          have htail := (List.mem_cons.mp h).resolve_left heq
          obtain ⟨before, rest, heqn, hrest, hbefore⟩ := ih htail (by omega)
          refine ⟨start :: before, rest, by rw [heqn, List.cons_append], hrest, ?_⟩
          intro q hq
          have hle := le_of_mem_opStartsFrom htail
          rcases List.mem_cons.mp hq with rfl | hq
          · omega
          · exact hbefore q hq
      · simp [hlt] at h

/-- A walk over plain instructions goes past the instructions that run, up to the one that
closes. -/
theorem Walk.layout (h : Walk instrs header pc visited back) (fuel : Nat)
    (hfuel : instrs.length ≤ pc + fuel)
    (hplain : ∀ q ∈ opStartsFrom instrs fuel pc, q < back → PlainAt instrs q) :
    ∃ after, opStartsFrom instrs fuel pc = visited ++ back :: after ∧ pc ≤ back ∧
      (∀ q ∈ visited, pc ≤ q ∧ q < back) ∧ ∀ q ∈ after, back < q := by
  induction h generalizing fuel with
  | closed here =>
    rename_i pc
    have hlt := here.lt
    obtain ⟨instr, hget, hop, -⟩ := here
    cases fuel with
    | zero => omega
    | succ fuel =>
      refine ⟨_, opStartsFrom_succ _ hlt (dispatch_narrow hget hop (by decide)), Nat.le_refl _,
        fun _ hq => by simp at hq, fun q hq => ?_⟩
      have hle := le_of_mem_opStartsFrom hq
      exact Nat.lt_of_lt_of_le (Nat.lt_succ_self _) hle
  | passed here rest ih =>
    rename_i pc back visited
    have hlt := here.lt
    have hpos := instrWidth_pos hlt
    have hle := rest.le
    cases fuel with
    | zero => omega
    | succ fuel =>
      have hhere : PlainAt instrs pc := by
        refine hplain pc ?_ (by omega)
        rw [opStartsFrom, if_pos hlt]
        split <;> simp
      obtain ⟨d, hd, hwidth⟩ := hhere.width
      have hstarts := opStartsFrom_succ fuel hlt hd
      rw [hwidth] at hstarts
      obtain ⟨after, heq, -, hvisited, hafter⟩ := ih fuel (by omega) fun q hq hback =>
        hplain q (by rw [hstarts]; exact List.mem_cons_of_mem _ hq) hback
      refine ⟨after, by rw [hstarts, heq, List.cons_append], by omega, ?_, hafter⟩
      intro q hq
      rcases List.mem_cons.mp hq with rfl | hq
      · exact ⟨Nat.le_refl _, by omega⟩
      · have := hvisited q hq
        omega

theorem Walk.passedAt (h : Walk instrs header pc visited back) :
    ∀ q ∈ visited, PassedAt instrs header q := by
  induction h with
  | closed => simp
  | passed here _ ih => exact List.forall_mem_cons.mpr ⟨here, ih⟩

theorem Walk.closesAt (h : Walk instrs header pc visited back) : ClosesAt instrs header back := by
  induction h with
  | closed here => exact here
  | passed _ _ ih => exact ih

/-- The instructions that run strictly between the header and the backedge. -/
def body (instrs : List Instr) (header back : Nat) : List Nat :=
  (opStarts instrs).filter fun pc => decide (header < pc) && decide (pc < back)

theorem Walk.eq_body (h : Walk instrs header (start + instrWidth instrs start) visited back)
    (hplain : Unprefixed instrs start back) :
    back ∈ opStarts instrs ∧ start < back ∧ visited = body instrs start back ∧
      visited.Pairwise (· < ·) := by
  obtain ⟨before, rest, hsplit, hrest, hbefore⟩ :=
    opStartsFrom_tail hplain.starts (Nat.le_of_eq (Nat.zero_add _).symm)
  have hclose := h.closesAt.lt
  have hle := h.le
  cases rest with
  | zero => omega
  | succ rest =>
    have hlt : start < instrs.length := by omega
    have hpos := instrWidth_pos hlt
    have hmem : ∀ q ∈ opStartsFrom instrs (rest + 1) start, q ∈ opStarts instrs := by
      intro q hq
      rw [opStarts, hsplit]
      exact List.mem_append_right _ hq
    obtain ⟨d, hd, hwidth⟩ := (hplain.plain start hplain.starts (Nat.le_refl _) (by omega)).width
    have hstarts := opStartsFrom_succ rest hlt hd
    rw [hwidth] at hstarts
    obtain ⟨after, hfrom, -, hvisited, hafter⟩ := h.layout rest (by omega) fun q hq hback => by
      have hq' : q ∈ opStartsFrom instrs (rest + 1) start := by
        rw [hstarts]
        exact List.mem_cons_of_mem _ hq
      exact hplain.plain q (hmem q hq') (le_of_mem_opStartsFrom hq') hback
    have hall : opStarts instrs = before ++ start :: (visited ++ back :: after) := by
      rw [opStarts, hsplit, hstarts, hfrom]
    have hnone (q : Nat) (hq : q ≤ start ∨ back ≤ q) :
        (decide (start < q) && decide (q < back)) = false := by
      simp only [Bool.and_eq_false_iff, decide_eq_false_iff_not]
      omega
    refine ⟨by simp [hall], by omega, ?_, h.sorted.1⟩
    rw [body, hall, List.filter_append, List.filter_cons, List.filter_append, List.filter_cons]
    rw [List.filter_eq_nil_iff.mpr, hnone start (.inl (Nat.le_refl _)),
      hnone back (.inr (Nat.le_refl _)), List.filter_eq_self.mpr, List.filter_eq_nil_iff.mpr]
    · simp
    · intro q hq
      rw [hnone q (.inr (Nat.le_of_lt (hafter q hq)))]
      decide
    · intro q hq
      have := hvisited q hq
      simp only [Bool.and_eq_true, decide_eq_true_eq]
      omega
    · intro q hq
      rw [hnone q (.inl (Nat.le_of_lt (hbefore q hq)))]
      decide

/-! ## §4 The pattern as executed -/

/-- The conditional branch dispatched at `pc` does not go back into `[header, pc)`. -/
def BranchesOut (instrs : List Instr) (header : BitVec 32) (pc : Nat) : Prop :=
  ∃ d, dispatch instrs pc = some (.narrow d) ∧ (d.op = .jumpIfFalse ∨ d.op = .jumpIfTrue) ∧
    d.width = 1 ∧
    ¬(header ≤ d.narrow.imm16.setWidth 32 ∧ d.narrow.imm16.setWidth 32 < BitVec.ofNat 32 pc)

/-- The instruction dispatched at `pc`, without a prefix, adds to or subtracts from `reg` and
writes `reg`. -/
def SelfUpdates (instrs : List Instr) (pc reg : Nat) : Prop :=
  ∃ d, dispatch instrs pc = some (.narrow d) ∧ (d.op = .add ∨ d.op = .sub) ∧ d.width = 1 ∧
    d.a.toNat = reg ∧ (d.b = d.a ∨ d.c = d.a)

theorem branchesOutAt_iff :
    branchesOutAt instrs header pc = true ↔ BranchesOut instrs header pc := by
  constructor
  · intro h
    unfold branchesOutAt at h
    cases hget : instrs[pc]? with
    | none => simp [hget] at h
    | some instr =>
      simp only [hget, branchesOut, Bool.and_eq_true, Bool.or_eq_true, Bool.not_eq_true',
        Bool.and_eq_false_iff, decide_eq_true_eq, decide_eq_false_iff_not] at h
      obtain ⟨hop, hout⟩ := h
      have hnot : ¬(header ≤ instr.imm16.setWidth 32 ∧
          instr.imm16.setWidth 32 < BitVec.ofNat 32 pc) :=
        fun hin => hout.elim (fun h => h hin.1) (fun h => h hin.2)
      rcases hop with hop | hop
      · exact ⟨_, dispatch_narrow hget hop (by decide), .inl rfl, rfl, hnot⟩
      · exact ⟨_, dispatch_narrow hget hop (by decide), .inr rfl, rfl, hnot⟩
  · rintro ⟨d, hdisp, hop, hone, hnot⟩
    obtain ⟨instr, hget, hinstr, -, hd⟩ := dispatch_one hdisp hone
    have hnarrow : d.narrow = instr := by rw [hd]
    rw [hnarrow] at hnot
    simp only [branchesOutAt, hget, branchesOut, Bool.and_eq_true, Bool.or_eq_true,
      Bool.not_eq_true', Bool.and_eq_false_iff, decide_eq_true_eq, decide_eq_false_iff_not, hinstr,
      Option.some.injEq]
    exact ⟨hop, not_and_or.mp hnot⟩

theorem toNat_mergeSlot_none (instr : Instr) (index : Nat) :
    (mergeSlot none instr index).toNat = (instr.bytes index).toNat := by
  have hlt := (instr.bytes index).isLt
  rw [mergeSlot, Lib.place, BitVec.shiftLeft_zero, BitVec.toNat_setWidth,
    Nat.mod_eq_of_lt (by omega)]

theorem mergeSlot_none_inj {i j : Nat} :
    mergeSlot none instr i = mergeSlot none instr j ↔ instr.bytes i = instr.bytes j := by
  simp only [← BitVec.toNat_inj, toNat_mergeSlot_none]

theorem selfUpdateAt_eq_some {reg : BitVec 8} :
    selfUpdateAt instrs pc = some reg ↔ SelfUpdates instrs pc reg.toNat := by
  constructor
  · intro h
    unfold selfUpdateAt at h
    cases hget : instrs[pc]? with
    | none => simp [hget] at h
    | some instr =>
      simp only [hget, selfUpdate] at h
      split at h
      · rename_i hop
        split at h
        · rename_i hself
          obtain rfl : instr.a = reg := by simpa using h
          have hsame : mergeSlot none instr 1 = mergeSlot none instr 0 ∨
              mergeSlot none instr 2 = mergeSlot none instr 0 := by
            simp only [mergeSlot_none_inj]
            exact hself.imp Eq.symm Eq.symm
          rcases hop with hop | hop
          · exact ⟨_, dispatch_narrow hget hop (by decide), .inl rfl, rfl,
              toNat_mergeSlot_none instr 0, hsame⟩
          · exact ⟨_, dispatch_narrow hget hop (by decide), .inr rfl, rfl,
              toNat_mergeSlot_none instr 0, hsame⟩
        · simp at h
      · simp at h
  · rintro ⟨d, hdisp, hop, hone, hreg, hself⟩
    obtain ⟨instr, hget, hinstr, -, hd⟩ := dispatch_one hdisp hone
    have ha : d.a = mergeSlot none instr 0 := by rw [hd]
    have hb : d.b = mergeSlot none instr 1 := by rw [hd]
    have hc : d.c = mergeSlot none instr 2 := by rw [hd]
    rw [ha, toNat_mergeSlot_none] at hreg
    have hdst : instr.a = reg := BitVec.eq_of_toNat_eq hreg
    have hself : instr.a = instr.b ∨ instr.a = instr.c := by
      rw [ha, hb, hc, mergeSlot_none_inj, mergeSlot_none_inj] at hself
      exact hself.imp Eq.symm Eq.symm
    have hop : some d.op = some Opcode.add ∨ some d.op = some Opcode.sub :=
      hop.imp (congrArg some) (congrArg some)
    simp only [selfUpdateAt, hget, hinstr, if_pos hop]
    rw [selfUpdate, if_pos hself, hdst]

/-- What a report says of the instructions that the dispatch loop runs from the header to the
backedge. -/
structure Pattern (instrs : List Instr) (l : CountedLoop) (back : Nat) : Prop where
  start : back ∈ opStarts instrs
  below : l.header.toNat < back
  backedge : l.backedge = BitVec.ofNat 32 back
  /-- The backedge goes to the header and nowhere else. -/
  closes : ∃ d, dispatch instrs back = some d ∧ successors back d = [l.header.toNat]
  /-- No header and no other jump to this one lies in between. -/
  passed : ∀ pc ∈ body instrs l.header.toNat back, PassedAt instrs l.header pc
  /-- The exit is the first branch in between that does not go back. -/
  exit : ∀ e, l.exit = some e → ∃ pc ∈ body instrs l.header.toNat back,
    e = BitVec.ofNat 32 pc ∧ BranchesOut instrs l.header pc ∧
      ∀ q ∈ body instrs l.header.toNat back, q < pc → ¬BranchesOut instrs l.header q
  noExit : l.exit = none →
    ∀ pc ∈ body instrs l.header.toNat back, ¬BranchesOut instrs l.header pc
  /-- The register is that of the first self-update in between. -/
  updates : ∀ reg, l.inductionReg = some reg → ∃ pc ∈ body instrs l.header.toNat back,
    SelfUpdates instrs pc reg.toNat ∧
      ∀ q ∈ body instrs l.header.toNat back, q < pc → ∀ other : BitVec 8,
        ¬SelfUpdates instrs q other.toNat
  noUpdate : l.inductionReg = none → ∀ pc ∈ body instrs l.header.toNat back,
    ∀ reg : BitVec 8, ¬SelfUpdates instrs pc reg.toNat

theorem mem_before {before after : List Nat} {q : Nat}
    (hs : (before ++ pc :: after).Pairwise (· < ·)) (hq : q ∈ before ++ pc :: after)
    (hlt : q < pc) : q ∈ before := by
  rcases List.mem_append.mp hq with hq | hq
  · exact hq
  · have hafter := (List.pairwise_cons.mp (List.pairwise_append.mp hs).2.1).1
    rcases List.mem_cons.mp hq with rfl | hq
    · omega
    · have := hafter q hq
      omega

/-- **Counted loops.** Where no instruction from the header to the backedge has a prefix, a report
names the shape of the instructions that run between the header and the first jump back to it. -/
theorem findCountedLoop_pattern {fb : FunctionBytecode} {header : BitVec 32} {l : CountedLoop}
    (h : findCountedLoop fb header = some l) :
    l.header = header ∧ ∃ back < fb.instrs.length, l.backedge = BitVec.ofNat 32 back ∧
      (Unprefixed fb.instrs header.toNat back → Pattern fb.instrs l back) := by
  obtain ⟨visited, back, hwalk, rfl⟩ := findCountedLoopFrom_eq_some h
  refine ⟨rfl, back, hwalk.closesAt.lt, rfl, fun hplain => ?_⟩
  obtain ⟨hback, hbelow, hbody, hsorted⟩ := hwalk.eq_body hplain
  rw [hbody] at hsorted
  refine ⟨hback, hbelow, rfl, ?_, ?_, ?_, ?_, ?_, ?_⟩
  · obtain ⟨instr, hget, hop, himm⟩ := hwalk.closesAt
    refine ⟨_, dispatch_narrow hget hop (by decide), ?_⟩
    show [instr.imm24.toNat] = [header.toNat]
    rw [himm]
  · show ∀ pc ∈ body fb.instrs header.toNat back, PassedAt fb.instrs header pc
    rw [← hbody]
    exact hwalk.passedAt
  · intro e he
    show ∃ pc ∈ body fb.instrs header.toNat back, _
    rw [← hbody] at hsorted ⊢
    simp only [reportOf, Option.none_or, Option.map_eq_some_iff] at he
    obtain ⟨pc, hfind, rfl⟩ := he
    obtain ⟨hout, before, after, heq, hbefore⟩ := List.find?_eq_some_iff_append.mp hfind
    refine ⟨pc, by simp [heq], rfl, branchesOutAt_iff.mp hout, ?_⟩
    intro q hq hlt hout
    change q ∈ body fb.instrs header.toNat back at hq
    change BranchesOut fb.instrs header q at hout
    rw [← hbody, heq] at hq
    rw [heq] at hsorted
    have hnot := hbefore q (mem_before hsorted hq hlt)
    rw [branchesOutAt_iff.mpr hout] at hnot
    simp at hnot
  · intro he pc hpc hout
    change pc ∈ body fb.instrs header.toNat back at hpc
    rw [← hbody] at hpc
    simp only [reportOf, Option.none_or, Option.map_eq_none_iff, List.find?_eq_none] at he
    exact he pc hpc (branchesOutAt_iff.mpr hout)
  · intro reg hreg
    show ∃ pc ∈ body fb.instrs header.toNat back, _
    rw [← hbody] at hsorted ⊢
    simp only [reportOf, Option.none_or] at hreg
    obtain ⟨before, pc, after, heq, hupd, hbefore⟩ := List.findSome?_eq_some_iff.mp hreg
    refine ⟨pc, by simp [heq], selfUpdateAt_eq_some.mp hupd, ?_⟩
    intro q hq hlt other hother
    change q ∈ body fb.instrs header.toNat back at hq
    rw [← hbody, heq] at hq
    rw [heq] at hsorted
    have hnone := hbefore q (mem_before hsorted hq hlt)
    rw [selfUpdateAt_eq_some.mpr hother] at hnone
    simp at hnone
  · intro hnone pc hpc reg hupd
    change pc ∈ body fb.instrs header.toNat back at hpc
    rw [← hbody] at hpc
    simp only [reportOf, Option.none_or, List.findSome?_eq_none_iff] at hnone
    have := hnone pc hpc
    rw [selfUpdateAt_eq_some.mpr hupd] at this
    simp at this

def plainLoop : FunctionBytecode :=
  .withInstructions [.newImm24 .loopHeader 0, .new .add 1 1 2, .newImm16 .jumpIfTrue 3 4,
    .newImm24 .jump 0, .new .returnOp 1 0 0] 4

theorem findCountedLoop_pattern_plain :
    Unprefixed plainLoop.instrs 0 3 ∧ Pattern plainLoop.instrs ⟨0, some 2, some 1, 3⟩ 3 := by
  have hplain : Unprefixed plainLoop.instrs 0 3 := by
    refine ⟨by decide, fun pc hpc _ hlt => ?_⟩
    have hstarts : opStarts plainLoop.instrs = [0, 1, 2, 3, 4] := by decide
    rw [hstarts] at hpc
    simp only [List.mem_cons, List.not_mem_nil, or_false] at hpc
    rcases hpc with rfl | rfl | rfl | rfl | rfl
    · exact ⟨_, dispatch_narrow rfl rfl (by decide), fun n hn => by cases hn; rfl⟩
    · exact ⟨_, dispatch_narrow rfl rfl (by decide), fun n hn => by cases hn; rfl⟩
    · exact ⟨_, dispatch_narrow rfl rfl (by decide), fun n hn => by cases hn; rfl⟩
    · omega
    · omega
  obtain ⟨-, back, hlt, hback, hpattern⟩ :=
    @findCountedLoop_pattern plainLoop 0 ⟨0, some 2, some 1, 3⟩ (by decide)
  have hlength : plainLoop.instrs.length = 5 := rfl
  have hthree : 3 = back % 2 ^ 32 := congrArg BitVec.toNat hback
  obtain rfl : back = 3 := by omega
  exact ⟨hplain, hpattern hplain⟩

/-! ## §5 What a report does not say -/

/-- The loop as the dispatch loop executes it: the update is an instruction of the loop on the
reported register, and control comes into the loop at the header only. -/
structure RunsAsReported (fb : FunctionBytecode) (l : CountedLoop) : Prop where
  updates : ∃ reg pc d, l.inductionReg = some reg ∧ pc ∈ opStarts fb.instrs ∧
    l.header.toNat < pc ∧ pc < l.backedge.toNat ∧ dispatch fb.instrs pc = some (.narrow d) ∧
    (d.op = .add ∨ d.op = .sub) ∧ d.a.toNat = reg.toNat ∧ (d.b = d.a ∨ d.c = d.a)
  entered : ∀ pc d next, Reaches fb pc → dispatch fb.instrs pc = some d →
    next ∈ successors pc d → pc < l.header.toNat ∨ l.backedge.toNat < pc →
    ¬(l.header.toNat < next ∧ next ≤ l.backedge.toNat)

def enteredBelow : FunctionBytecode :=
  .withInstructions [.newImm24 .jump 2, .newImm24 .loopHeader 0, .new .add 1 1 2,
    .newImm16 .jumpIfTrue 3 5, .newImm24 .jump 1, .new .returnOp 1 0 0] 4

def prefixedUpdate : FunctionBytecode :=
  .withInstructions ([.newImm24 .loopHeader 0] ++ (WideOp.regExt 3 1 1 0).encode ++
    ([.new .add 1 1 2, .newImm16 .jumpIfTrue 3 6, .newImm24 .jump 0, .new .returnOp 1 0 0] :
      List Instr)) 300

/-- A reported loop can be entered below its header, and the register reported for a prefixed
update is not the one it updates. -/
theorem reported_not_run :
    (findCountedLoop enteredBelow 1 = some ⟨1, some 3, some 1, 4⟩ ∧
      ¬RunsAsReported enteredBelow ⟨1, some 3, some 1, 4⟩) ∧
    (findCountedLoop prefixedUpdate 0 = some ⟨0, some 4, some 1, 5⟩ ∧
      ¬RunsAsReported prefixedUpdate ⟨0, some 4, some 1, 5⟩) := by
  refine ⟨⟨by decide, ?_⟩, by decide, ?_⟩
  · intro hrun
    have hdisp : dispatch enteredBelow.instrs 0 =
        some (.narrow ⟨.jump, 0, 0, 2, 1, .newImm24 .jump 2⟩) := by decide
    exact hrun.entered 0 _ 2 .entry hdisp (by decide) (.inl (by decide)) (by decide)
  · intro hrun
    obtain ⟨reg, pc, d, hreg, hpc, hlo, hhi, hdisp, hop, hdst, -⟩ := hrun.updates
    have hreg : reg = 1 := by simpa using hreg.symm
    have hstarts : opStarts prefixedUpdate.instrs = [0, 1, 4, 5, 6] := by decide
    rw [hstarts] at hpc
    have h1 : dispatch prefixedUpdate.instrs 1 =
        some (.narrow ⟨.add, 257, 257, 2, 3, .new .add 1 1 2⟩) := by decide
    have h4 : dispatch prefixedUpdate.instrs 4 =
        some (.narrow ⟨.jumpIfTrue, 3, 0, 6, 1, .newImm16 .jumpIfTrue 3 6⟩) := by decide
    simp only [List.mem_cons, List.not_mem_nil, or_false] at hpc
    rcases hpc with rfl | rfl | rfl | rfl | rfl
    · exact absurd hlo (by decide)
    · obtain rfl : _ = d := by simpa [h1] using hdisp
      rw [hreg] at hdst
      exact absurd hdst (by decide)
    · obtain rfl : _ = d := by simpa [h4] using hdisp
      exact absurd hop (by decide)
    · exact absurd hhi (by decide)
    · exact absurd hhi (by decide)

end V12.Interp
