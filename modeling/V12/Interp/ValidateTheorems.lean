/-
V12.Interp.ValidateTheorems — what a validated function can do in the
dispatch loop.

`validate` walks the stream in pc order: `Chunked` says the stream splits into
instructions that dispatch, lie inside the stream and keep their checked
registers below `max_regs`.
-/
import V12.Interp.Decode
import V12.Bytecode.WideTheorems

namespace V12.Interp

open V12.Bytecode

variable {ε α : Type} {at_ : BitVec 32} {op : Opcode} {maxRegs r width pc : Nat}
  {operands : Nat → BitVec 16} {generator : Bool} {d : Decoded} {fb : FunctionBytecode}
  {envs envs' : List Nat} {instrs : List Instr}

/-! ## §1 Accepted checks -/

theorem bind_ok {β : Type} {x : Except ε α} {f : α → Except ε β} {r : β} (h : (x >>= f) = .ok r) :
    ∃ v, x = .ok v ∧ f v = .ok r := by
  cases x with
  | error e => simp [bind, Except.bind] at h
  | ok v => exact ⟨v, rfl, h⟩

theorem bind_of_ok {β : Type} {x : Except ε α} {f : α → Except ε β} {v : α} {r : Except ε β}
    (hx : x = .ok v) (hf : f v = r) : (x >>= f) = r := by
  rw [hx]
  exact hf

theorem forM_ok {f : α → Except ε PUnit} :
    ∀ {xs : List α}, xs.forM f = .ok () → ∀ x ∈ xs, f x = .ok ()
  | [], _, x, hx => by simp at hx
  | y :: ys, h, x, hx => by
    obtain ⟨_, hy, hys⟩ := bind_ok (x := f y) h
    rcases List.mem_cons.mp hx with rfl | hx
    · exact hy
    · exact forM_ok hys x hx

theorem checkRegister_ok {operand : String} {reg : BitVec 16}
    (h : checkRegister at_ op operand reg maxRegs = .ok ()) :
    reg.toNat < maxRegs := by
  unfold checkRegister at h
  by_cases hr : reg.toNat < maxRegs
  · exact hr
  · simp [hr] at h

theorem checkRegisters_ok (h : checkRegisters at_ op operands maxRegs = .ok ()) {index : Nat}
    (hi : index < 3) (hreg : (spec op).indexIsRegister index = true) :
    (operands index).toNat < maxRegs := by
  have hmem : index ∈ [0, 1, 2] := by
    simp only [List.mem_cons, List.not_mem_nil, or_false]
    omega
  have hx := forM_ok h index hmem
  simp only [hreg, if_true] at hx
  exact checkRegister_ok hx

theorem checkWindow_ok (h : checkPositionalWindows at_ op operands maxRegs = .ok ()) :
    (op = .newArray → (operands 1).toNat + (operands 2).toNat < maxRegs) ∧
    (op = .defineAccessor ∨ op = .defineAccessorEnumerable → (operands 2).toNat + 1 < maxRegs) := by
  constructor
  · rintro rfl
    by_contra hlt
    simp [checkPositionalWindows, hlt] at h
  · rintro (rfl | rfl) <;>
    · by_contra hlt
      simp [checkPositionalWindows, hlt] at h

theorem checkBranch_ok {instr : Instr} {n target : Nat} (h : checkBranch at_ op instr n = .ok ())
    (ht : branchTarget op instr = some target) :
    target ≤ n := by
  have hle : n % 2 ^ 32 ≤ n := Nat.mod_le _ _
  unfold checkBranch at h
  rw [ht] at h
  by_cases hlt : n % 2 ^ 32 < target
  · simp only [hlt, if_true] at h
    cases h
  · omega

/-! ## §2 One checked instruction -/

/-- The registers the walk does not check: the excluded keys of a
`CopyObjectRestW`, and the slot a `CreateGenerator` reads as a register
only where the frame has no generator. -/
def Dispatched.unchecked (generator : Bool) : Dispatched → List Nat
  | .narrow d => if d.op = .createGenerator ∧ generator = false then [d.b.toNat] else []
  | .wide (.copyObjectRestW _ _ exclBase exclCount) _ => window exclBase exclCount.toNat
  | .wide _ _ => []

theorem mem_window {base : BitVec 16} {count : Nat} :
    r ∈ window base count ↔ base.toNat ≤ r ∧ r < base.toNat + count := by
  simp [window, List.mem_range'_1]

theorem mem_narrowAccesses (hr : r ∈ narrowAccesses generator d) :
    (r = d.a.toNat ∧ (spec d.op).a.isRegister = true) ∨
    (r = d.b.toNat ∧ (spec d.op).b.isRegister = true) ∨
    (r = d.c.toNat ∧ (spec d.op).c.isRegister = true) ∨
    (d.op = .newArray ∧ r ∈ window d.b d.c.toNat) ∨
    ((d.op = .defineAccessor ∨ d.op = .defineAccessorEnumerable) ∧ r ∈ window d.c 2) ∨
    (d.op = .createGenerator ∧ generator = false ∧ r = d.b.toNat) := by
  obtain ⟨op, a, b, c, width, narrow⟩ := d
  cases op
  case copyObjectRest | genResumeMode =>
    simp only [narrowAccesses] at hr
    split at hr <;> simp [spec, Role.isRegister] at hr ⊢ <;> tauto
  case createGenerator => cases generator <;> simp_all [narrowAccesses, spec, Role.isRegister]
  all_goals simp [narrowAccesses, spec, Role.isRegister] at hr ⊢ <;> tauto

theorem narrowAccesses_lt (hregs : checkRegisters at_ d.op operands maxRegs = .ok ())
    (hwin : checkPositionalWindows at_ d.op operands maxRegs = .ok ()) (ha : d.a = operands 0)
    (hb : d.b = operands 1) (hc : d.c = operands 2) (hr : r ∈ narrowAccesses generator d) :
    r < maxRegs ∨ r ∈ (Dispatched.narrow d).unchecked generator := by
  obtain ⟨harr, hacc⟩ := checkWindow_ok hwin
  rcases mem_narrowAccesses hr with ⟨rfl, hreg⟩ | ⟨rfl, hreg⟩ | ⟨rfl, hreg⟩ | ⟨hop, hmem⟩ |
    ⟨hop, hmem⟩ | ⟨hop, hgen, rfl⟩
  · left
    rw [ha]
    exact checkRegisters_ok hregs (by omega) hreg
  · left
    rw [hb]
    exact checkRegisters_ok hregs (by omega) hreg
  · left
    rw [hc]
    exact checkRegisters_ok hregs (by omega) hreg
  · -- the element window of an array literal
    have := harr hop
    rw [mem_window, hb, hc] at hmem
    omega
  · -- the accessor pair
    have := hacc hop
    rw [mem_window, hc] at hmem
    omega
  · right
    simp [Dispatched.unchecked, hop, hgen]

theorem wideAccesses_lt {wide : WideOp} (hregs : ∀ p ∈ wide.eachRegister, p.2.toNat < maxRegs)
    (hr : r ∈ wideAccesses wide) :
    r < maxRegs ∨ r ∈ (Dispatched.wide wide width).unchecked generator := by
  cases wide
  case copyObjectRestW dst src exclBase exclCount =>
    simp only [wideAccesses, List.mem_cons] at hr
    rcases hr with rfl | rfl | hr
    · exact Or.inl (hregs ("dst", dst) (by simp [WideOp.eachRegister]))
    · exact Or.inl (hregs ("src", src) (by simp [WideOp.eachRegister]))
    · exact Or.inr hr
  all_goals
    left
    simp [wideAccesses] at hr
  all_goals
    simp [WideOp.eachRegister] at hregs
    omega

/-! ## §3 Dispatch of what the walk accepted -/

theorem checkNarrow_ok {instr : Instr} {ext : Option RegExtPrefix}
    (h : checkNarrow fb pc op instr ext envs = .ok envs') :
    checkRegisters (BitVec.ofNat 32 pc) op (mergeSlot ext instr) fb.maxRegs.toNat = .ok () ∧
    checkPositionalWindows (BitVec.ofNat 32 pc) op (mergeSlot ext instr) fb.maxRegs.toNat =
      .ok () ∧
    checkBranch (BitVec.ofNat 32 pc) op instr fb.instrs.length = .ok () := by
  obtain ⟨_, hregs, h⟩ := bind_ok h
  obtain ⟨_, hwin, h⟩ := bind_ok h
  obtain ⟨_, -, h⟩ := bind_ok h
  obtain ⟨_, -, h⟩ := bind_ok h
  obtain ⟨_, hbranch, -⟩ := bind_ok h
  exact ⟨hregs, hwin, hbranch⟩

theorem checkWide_ok {wide : WideOp} (h : checkWide fb pc wide envs = .ok envs') :
    ∀ p ∈ wide.eachRegister, p.2.toNat < fb.maxRegs.toNat := by
  obtain ⟨_, hregs, -⟩ := bind_ok h
  intro p hp
  exact checkRegister_ok (forM_ok hregs p hp)

theorem dispatch_lt {d : Dispatched} (h : dispatch instrs pc = some d) : pc < instrs.length := by
  by_contra hge
  have hnone : instrs[pc]? = none := List.getElem?_eq_none_iff.mpr (by omega)
  simp [dispatch, decodeInstr, hnone] at h

/-- The instruction at `pc` dispatches as `d`, lies inside the stream, goes
no further than its end, and keeps its checked registers in the frame. -/
structure Certified (fb : FunctionBytecode) (pc : Nat) (d : Dispatched) : Prop where
  dispatched : dispatch fb.instrs pc = some d
  width_pos : 0 < d.width
  ends : pc + d.width ≤ fb.instrs.length
  bounded : ∀ next ∈ successors pc d, next = pc + d.width ∨ next ≤ fb.instrs.length
  registers : ∀ generator, ∀ r ∈ d.accesses generator,
    r < fb.maxRegs.toNat ∨ r ∈ d.unchecked generator

theorem mem_successors_narrow {next : Nat} (h : next ∈ successors pc (.narrow d)) :
    next = pc + d.width ∨ branchTarget d.op d.narrow = some next := by
  obtain ⟨op, a, b, c, width, narrow⟩ := d
  cases op
  all_goals simp [successors, branchTarget] at h ⊢ <;> omega

theorem certified_narrow {at_ : Nat} {instr : Instr} {ext : Option RegExtPrefix}
    (h : checkNarrow fb at_ op instr ext envs = .ok envs') (hop : op ≠ .wide)
    (hdec : decodeInstr fb.instrs pc = some ⟨op, mergeSlot ext instr 0, mergeSlot ext instr 1,
      mergeSlot ext instr 2, width, instr⟩) (hpos : 0 < width)
    (hends : pc + width ≤ fb.instrs.length) :
    ∃ d, Certified fb pc d ∧ d.width = width := by
  obtain ⟨hregs, hwin, hbranch⟩ := checkNarrow_ok h
  refine ⟨.narrow ⟨op, mergeSlot ext instr 0, mergeSlot ext instr 1, mergeSlot ext instr 2, width,
    instr⟩, ⟨?_, hpos, hends, ?_, ?_⟩, rfl⟩
  · unfold dispatch
    rw [hdec]
    cases op <;> first | rfl | exact absurd rfl hop
  · intro next hnext
    rcases mem_successors_narrow hnext with h | h
    · exact Or.inl h
    · exact Or.inr (checkBranch_ok hbranch h)
  · intro generator r hr
    exact narrowAccesses_lt hregs hwin rfl rfl rfl hr

theorem decodeInstr_narrow {instr : Instr} (hget : instrs[pc]? = some instr)
    (hop : instr.op = some op) (hwide : op ≠ .wide) :
    decodeInstr instrs pc = some ⟨op, mergeSlot none instr 0, mergeSlot none instr 1,
      mergeSlot none instr 2, 1, instr⟩ := by
  unfold decodeInstr
  rw [hget]
  simp only [hop]

theorem drop_eq_cons {instr : Instr} (hget : instrs[pc]? = some instr) :
    instrs.drop pc = instr :: instrs.drop (pc + 1) := by
  obtain ⟨hlt, rfl⟩ := List.getElem?_eq_some_iff.mp hget
  exact List.drop_eq_getElem_cons hlt

theorem disc_eq_regExt_iff {instr : Instr} {wide : WideOp} (hget : instrs[pc]? = some instr)
    (hdec : WideOp.tryDecode (instrs.drop pc) = .ok (wide, width)) :
    instr.c.setWidth 32 = WideOp.discRegExt ↔ wide.disc = WideOp.discRegExt := by
  rw [drop_eq_cons hget] at hdec
  obtain ⟨hdisc, -, -⟩ := WideOp.tryDecode_layout hdec
  have hlt : instr.c.toNat < 2 ^ 32 := Nat.lt_of_lt_of_le instr.c.isLt (by decide)
  constructor
  · intro h
    apply BitVec.eq_of_toNat_eq
    rw [← hdisc, ← h, BitVec.toNat_setWidth, Nat.mod_eq_of_lt hlt]
  · intro h
    apply BitVec.eq_of_toNat_eq
    rw [BitVec.toNat_setWidth, Nat.mod_eq_of_lt hlt, hdisc, h]

theorem disc_ne_regExt {wide : WideOp}
    (h : ∀ mask aHi bHi cHi, wide ≠ .regExt mask aHi bHi cHi) :
    wide.disc ≠ WideOp.discRegExt := by
  cases wide
  case regExt mask aHi bHi cHi => exact absurd rfl (h mask aHi bHi cHi)
  all_goals simp [WideOp.disc, WideOp.discRegExt]

theorem decodeInstr_prefixed {instr narrow : Instr} {p : RegExtPrefix}
    (hget : instrs[pc]? = some instr) (hop : instr.op = some .wide)
    (hdec : WideOp.tryDecode (instrs.drop pc) = .ok (.regExt p.mask p.aHi p.bHi p.cHi, width))
    (hnarrow : instrs[pc + 2]? = some narrow) (hnop : narrow.op = some op) :
    decodeInstr instrs pc = some ⟨op, mergeSlot (some p) narrow 0, mergeSlot (some p) narrow 1,
      mergeSlot (some p) narrow 2, 3, narrow⟩ := by
  have hdisc : instr.c.setWidth 32 = WideOp.discRegExt := (disc_eq_regExt_iff hget hdec).mpr rfl
  unfold decodeInstr
  rw [hget]
  simp only [hop, hdisc, if_true, hdec, hnarrow, hnop]

theorem certified_wide {at_ : Nat} {instr : Instr} {wide : WideOp}
    (hget : fb.instrs[pc]? = some instr) (hop : instr.op = some .wide)
    (hdec : WideOp.tryDecode (fb.instrs.drop pc) = .ok (wide, width))
    (hne : wide.disc ≠ WideOp.discRegExt) (h : checkWide fb at_ wide envs = .ok envs') :
    ∃ d, Certified fb pc d ∧ d.width = width := by
  have hcons := drop_eq_cons hget
  obtain ⟨-, hlen, hle⟩ := WideOp.tryDecode_layout (hcons ▸ hdec)
  rw [← hcons, List.length_drop] at hle
  have hpos := WideOp.encode_length_pos wide
  have hdisc : instr.c.setWidth 32 ≠ WideOp.discRegExt := fun hd =>
    hne ((disc_eq_regExt_iff hget hdec).mp hd)
  refine ⟨.wide wide width, ⟨?_, ?_, ?_, ?_, ?_⟩, rfl⟩
  · unfold dispatch decodeInstr
    rw [hget]
    simp only [hop, hdisc, if_false, hdec]
    cases wide <;> first | rfl | exact absurd rfl hne
  · simp only [Dispatched.width]
    omega
  · simp only [Dispatched.width]
    omega
  · intro next hnext
    exact Or.inl (by simpa [successors, Dispatched.width] using hnext)
  · intro generator r hr
    exact wideAccesses_lt (checkWide_ok h) hr

/-! ## §4 The walk certifies the layout -/

/-- The stream from `pc` on splits into certified instructions. -/
inductive Chunked (fb : FunctionBytecode) : Nat → Prop where
  | done : Chunked fb fb.instrs.length
  | instr {pc : Nat} {d : Dispatched} (head : Certified fb pc d)
      (tail : Chunked fb (pc + d.width)) : Chunked fb pc

theorem checkFrom_pending {fuel : Nat} {p : RegExtPrefix}
    (h : checkFrom fb fuel pc (some p) envs = .ok ()) :
    ∃ fuel' narrow op envs', fuel = fuel' + 1 ∧ fb.instrs[pc]? = some narrow ∧
      narrow.op = some op ∧ op ≠ .wide ∧ checkNarrow fb pc op narrow (some p) envs = .ok envs' ∧
      checkFrom fb fuel' (pc + 1) none envs' = .ok () := by
  cases fuel with
  | zero => simp [checkFrom, checkEnd] at h
  | succ fuel =>
    unfold checkFrom at h
    split at h
    case h_1 => simp [checkEnd] at h
    case h_2 narrow hget =>
      split at h
      case h_1 => cases h
      case h_2 =>
        -- both wide branches reject under a pending prefix
        split at h
        all_goals simp at h
      case h_3 op hwide hop =>
        split at h
        case h_1 => cases h
        case h_2 envs' hcheck =>
          exact ⟨fuel, narrow, op, envs', rfl, hget, hop, hwide, hcheck, h⟩

theorem checkFrom_chunked : ∀ (fuel pc : Nat) (envs : List Nat),
    pc ≤ fb.instrs.length → fb.instrs.length ≤ pc + fuel →
      checkFrom fb fuel pc none envs = .ok () → Chunked fb pc := by
  intro fuel
  induction fuel using Nat.strong_induction_on with
  | _ fuel ih =>
    intro pc envs hle hfuel h
    cases hget : fb.instrs[pc]? with
    | none =>
      have hge : fb.instrs.length ≤ pc := List.getElem?_eq_none_iff.mp hget
      have : pc = fb.instrs.length := by omega
      exact this ▸ .done
    | some instr =>
      obtain ⟨hlt, -⟩ := List.getElem?_eq_some_iff.mp hget
      cases fuel with
      | zero => omega
      | succ fuel =>
        unfold checkFrom at h
        rw [hget] at h
        simp only at h
        split at h
        case h_1 => cases h
        case h_2 hop =>
          have hcons := drop_eq_cons hget
          split at h
          case h_1 => cases h
          case h_2 mask aHi bHi cHi width hdec =>
            obtain ⟨-, hlen, -⟩ := WideOp.tryDecode_layout (hcons ▸ hdec)
            have hwidth : width = 2 := hlen.symm
            subst hwidth
            simp only [Option.isSome_none, Bool.false_eq_true, if_false] at h
            obtain ⟨fuel', narrow, op, envs', rfl, hnget, hnop, hne, hcheck, h⟩ :=
              checkFrom_pending h
            obtain ⟨hnlt, -⟩ := List.getElem?_eq_some_iff.mp hnget
            have hdecode := decodeInstr_prefixed (p := ⟨mask, aHi, bHi, cHi⟩) hget hop hdec hnget hnop
            obtain ⟨d, hd, hdw⟩ := certified_narrow hcheck hne hdecode (by omega) (by omega)
            refine .instr hd ?_
            rw [hdw]
            exact ih fuel' (by omega) (pc + 3) envs' (by omega) (by omega) h
          case h_3 wide width hne hdec =>
            simp only [Option.isSome_none, Bool.false_eq_true, if_false] at h
            split at h
            case h_1 => cases h
            case h_2 envs' hcheck =>
              have hdisc : wide.disc ≠ WideOp.discRegExt :=
                disc_ne_regExt fun _ _ _ _ heq => hne _ _ _ _ heq
              obtain ⟨d, hd, hdw⟩ := certified_wide hget hop hdec hdisc hcheck
              have hpos := hd.width_pos
              have hends := hd.ends
              refine .instr hd ?_
              rw [hdw] at hpos hends ⊢
              exact ih fuel (by omega) (pc + width) envs' (by omega) (by omega) h
        case h_3 op hwide hop =>
          split at h
          case h_1 => cases h
          case h_2 envs' hcheck =>
            have hdecode := decodeInstr_narrow hget hop hwide
            obtain ⟨d, hd, hdw⟩ := certified_narrow hcheck hwide hdecode (by omega) (by omega)
            refine .instr hd ?_
            rw [hdw]
            exact ih fuel (by omega) (pc + 1) envs' (by omega) (by omega) h

/-- **Validation certifies the sequential layout.** -/
theorem validate_chunked (h : fb.validate = .ok ()) : Chunked fb 0 := by
  obtain ⟨_, -, h⟩ := bind_ok h
  obtain ⟨_, -, h⟩ := bind_ok h
  exact checkFrom_chunked _ 0 [] (Nat.zero_le _) (by omega) h

theorem checkHandlers_target {n : Nat} : ∀ {hs openRanges : List HandlerRange} {prev : Nat},
    checkHandlers n hs openRanges prev = .ok () → ∀ h ∈ hs, h.target < n
  | [], _, _, _, h, hmem => by simp at hmem
  | x :: rest, openRanges, prev, hok, h, hmem => by
    unfold checkHandlers at hok
    split at hok
    case isTrue => cases hok
    case isFalse =>
      split at hok
      case isTrue => cases hok
      case isFalse =>
        split at hok
        case isTrue => cases hok
        case isFalse htarget =>
          have hrest : ∃ openRanges' prev', checkHandlers n rest openRanges' prev' = .ok () := by
            simp only at hok
            split at hok
            case h_1 =>
              split at hok
              case isTrue => cases hok
              case isFalse =>
                split at hok
                case isTrue => cases hok
                case isFalse => exact ⟨_, _, hok⟩
            case h_2 => exact ⟨_, _, hok⟩
          obtain ⟨openRanges', prev', hrest⟩ := hrest
          rcases List.mem_cons.mp hmem with rfl | hmem
          · omega
          · exact checkHandlers_target hrest h hmem

theorem validate_handler_target (h : fb.validate = .ok ()) {range : HandlerRange}
    (hmem : range ∈ fb.handlers) : range.target < fb.instrs.length := by
  obtain ⟨_, -, h⟩ := bind_ok h
  obtain ⟨_, hhandlers, -⟩ := bind_ok h
  exact checkHandlers_target hhandlers range hmem

/-! ## §5 Starts of a certified layout -/

-- The equations are made here, ahead of the proofs below that all ask for them.
attribute [local simp] opStartsFrom

theorem Chunked.lands {fuel : Nat} (h : Chunked fb pc) (hfuel : fb.instrs.length ≤ pc + fuel) :
    pc ∈ opStartsFrom fb.instrs fuel pc ∨ pc = fb.instrs.length := by
  cases h with
  | done => exact Or.inr rfl
  | @instr _ d head tail =>
    have hpos := head.width_pos
    have hends := head.ends
    cases fuel with
    | zero => omega
    | succ fuel =>
      left
      have hlt : pc < fb.instrs.length := by omega
      simp [opStartsFrom, hlt, head.dispatched]

theorem Chunked.start_certified (h : Chunked fb pc) :
    ∀ fuel, fb.instrs.length ≤ pc + fuel → ∀ start ∈ opStartsFrom fb.instrs fuel pc,
      ∃ d, Certified fb start d ∧ (start + d.width ∈ opStartsFrom fb.instrs fuel pc ∨
        start + d.width = fb.instrs.length) := by
  induction h with
  | done =>
    intro fuel _ start hmem
    cases fuel with
    | zero => simp [opStartsFrom] at hmem
    | succ fuel => simp [opStartsFrom] at hmem
  | @instr pc d head tail ih =>
    intro fuel hfuel start hmem
    have hpos := head.width_pos
    have hends := head.ends
    cases fuel with
    | zero => omega
    | succ fuel =>
      have hlt : pc < fb.instrs.length := by omega
      have hstarts : opStartsFrom fb.instrs (fuel + 1) pc =
          pc :: opStartsFrom fb.instrs fuel (pc + d.width) := by
        simp [opStartsFrom, hlt, head.dispatched]
      rw [hstarts] at hmem ⊢
      rcases List.mem_cons.mp hmem with rfl | hmem
      · refine ⟨d, head, ?_⟩
        rcases tail.lands (show fb.instrs.length ≤ start + d.width + fuel by omega) with hin | hend
        · exact Or.inl (List.mem_cons_of_mem _ hin)
        · exact Or.inr hend
      · obtain ⟨d', hcert, hnext⟩ := ih fuel (by omega) start hmem
        refine ⟨d', hcert, ?_⟩
        rcases hnext with hin | hend
        · exact Or.inl (List.mem_cons_of_mem _ hin)
        · exact Or.inr hend

theorem validate_start (h : fb.validate = .ok ()) (hpc : pc ∈ opStarts fb.instrs) :
    ∃ d, Certified fb pc d ∧ LandsOn fb.instrs (pc + d.width) :=
  (validate_chunked h).start_certified _ (by omega) pc hpc

theorem validate_entry_lands (h : fb.validate = .ok ()) :
    LandsOn fb.instrs 0 := (validate_chunked h).lands (by omega)

/-! ## §6 Executions of a validated function -/

/-- Every pc an execution is at starts an instruction, or is the end of the
stream; there it decodes, and its registers lie in the frame. -/
def Safe (fb : FunctionBytecode) (generator : Bool) : Prop :=
  ∀ pc, Reaches fb pc →
    LandsOn fb.instrs pc ∧
      (pc < fb.instrs.length → ∃ d, dispatch fb.instrs pc = some d ∧
        ∀ r ∈ d.accesses generator, r < fb.maxRegs.toNat)

/-- The targets and registers that validation leaves open: handlers enter at
instruction starts, the branches reached go to instruction starts or the
end, and the registers reached that no role names are in the frame. -/
structure ControlFits (fb : FunctionBytecode) (generator : Bool) : Prop where
  handlers : ∀ h ∈ fb.handlers, h.target ∈ opStarts fb.instrs
  branches : ∀ {pc : Nat} {d : Decoded}, Reaches fb pc →
    dispatch fb.instrs pc = some (.narrow d) →
      ∀ target, branchTarget d.op d.narrow = some target → LandsOn fb.instrs target
  registers : ∀ {pc : Nat} {d : Dispatched}, Reaches fb pc → dispatch fb.instrs pc = some d →
    ∀ r ∈ d.unchecked generator, r < fb.maxRegs.toNat

theorem branchTarget_mem_successors {target : Nat} (h : branchTarget d.op d.narrow = some target) :
    target ∈ successors pc (.narrow d) := by
  obtain ⟨op, a, b, c, width, narrow⟩ := d
  cases op
  all_goals simp [successors, branchTarget] at h ⊢ <;> omega

theorem unchecked_subset_accesses {d : Dispatched} (h : r ∈ d.unchecked generator) :
    r ∈ d.accesses generator := by
  cases d with
  | narrow d =>
    simp only [Dispatched.unchecked] at h
    split at h
    case isTrue hop =>
      simp only [List.mem_singleton] at h
      simp [Dispatched.accesses, narrowAccesses, hop.1, hop.2, h]
    case isFalse => simp at h
  | wide op width =>
    cases op
    case copyObjectRestW dst src exclBase exclCount =>
      simp only [Dispatched.unchecked] at h
      simp [Dispatched.accesses, wideAccesses, h]
    all_goals simp [Dispatched.unchecked] at h

theorem successor_lands (h : fb.validate = .ok ()) {next : Nat} {d : Dispatched}
    (hpc : pc ∈ opStarts fb.instrs) (hd : dispatch fb.instrs pc = some d)
    (hbranch : ∀ n, d = .narrow n →
      ∀ target, branchTarget n.op n.narrow = some target → LandsOn fb.instrs target)
    (hnext : next ∈ successors pc d) : LandsOn fb.instrs next := by
  obtain ⟨d', hcert, hlands⟩ := validate_start h hpc
  have hdd : d' = d := Option.some.inj (hcert.dispatched.symm.trans hd)
  subst hdd
  cases d' with
  | narrow n =>
    rcases mem_successors_narrow hnext with heq | htarget
    · exact heq ▸ hlands
    · exact hbranch n rfl next htarget
  | wide op width =>
    have heq : next = pc + width := by simpa [successors] using hnext
    exact heq ▸ hlands

theorem ControlFits.reaches_lands (hfits : ControlFits fb generator) (h : fb.validate = .ok ())
    (hreach : Reaches fb pc) : LandsOn fb.instrs pc := by
  induction hreach with
  | entry => exact validate_entry_lands h
  | handler mem => exact Or.inl (hfits.handlers _ mem)
  | @step pc next d reached decoded succ ih =>
    rcases ih with hstart | hend
    · refine successor_lands h hstart decoded ?_ succ
      rintro n rfl target htarget
      exact hfits.branches reached decoded target htarget
    · exact absurd (dispatch_lt decoded) (by omega)

/-- **Validation makes execution safe exactly when the open targets and
registers fit.** -/
theorem validate_safe_iff (fb : FunctionBytecode) (generator : Bool)
    (h : fb.validate = .ok ()) : Safe fb generator ↔ ControlFits fb generator := by
  constructor
  · intro hsafe
    refine ⟨?_, ?_, ?_⟩
    · intro range hmem
      have hlt := validate_handler_target h hmem
      rcases (hsafe _ (.handler hmem)).1 with hstart | hend
      · exact hstart
      · omega
    · intro pc d hreach hd target htarget
      exact (hsafe _ (.step hreach hd (branchTarget_mem_successors htarget))).1
    · intro pc d hreach hd r hr
      obtain ⟨d', hd', hregs⟩ := (hsafe pc hreach).2 (dispatch_lt hd)
      have hdd : d' = d := Option.some.inj (hd'.symm.trans hd)
      subst hdd
      exact hregs r (unchecked_subset_accesses hr)
  · intro hfits pc hreach
    have hlands := hfits.reaches_lands h hreach
    refine ⟨hlands, ?_⟩
    intro hlt
    have hstart : pc ∈ opStarts fb.instrs := by
      rcases hlands with hstart | hend
      · exact hstart
      · omega
    obtain ⟨d, hcert, -⟩ := validate_start h hstart
    refine ⟨d, hcert.dispatched, ?_⟩
    intro r hr
    rcases hcert.registers generator r hr with hlt | hopen
    · exact hlt
    · exact hfits.registers hreach hcert.dispatched r hopen

/-! ## §7 A static check of the open part -/

/-- The control-flow condition at every start of the stream, reached or not. -/
def staticFits (fb : FunctionBytecode) (generator : Bool) : Bool :=
  fb.handlers.all (fun h => h.target ∈ opStarts fb.instrs) &&
  (opStarts fb.instrs).all fun pc =>
    match dispatch fb.instrs pc with
    | some d => (successors pc d).all (fun next => LandsOn fb.instrs next) &&
        (d.unchecked generator).all (fun r => r < fb.maxRegs.toNat)
    | none => true

theorem staticFits_at (hs : staticFits fb generator = true) {d : Dispatched}
    (hpc : pc ∈ opStarts fb.instrs) (hd : dispatch fb.instrs pc = some d) :
    (∀ next ∈ successors pc d, LandsOn fb.instrs next) ∧
    ∀ r ∈ d.unchecked generator, r < fb.maxRegs.toNat := by
  simp only [staticFits, Bool.and_eq_true, List.all_eq_true] at hs
  have := hs.2 pc hpc
  rw [hd] at this
  simpa only [Bool.and_eq_true, List.all_eq_true, decide_eq_true_eq] using this

theorem staticFits_reaches (hs : staticFits fb generator = true) (h : fb.validate = .ok ())
    (hreach : Reaches fb pc) : LandsOn fb.instrs pc := by
  induction hreach with
  | entry => exact validate_entry_lands h
  | @handler range mem =>
    simp only [staticFits, Bool.and_eq_true, List.all_eq_true, decide_eq_true_eq] at hs
    exact Or.inl (hs.1 range mem)
  | @step pc next d reached decoded succ ih =>
    rcases ih with hstart | hend
    · exact (staticFits_at hs hstart decoded).1 next succ
    · exact absurd (dispatch_lt decoded) (by omega)

theorem ControlFits.of_static (hs : staticFits fb generator = true) (h : fb.validate = .ok ()) :
    ControlFits fb generator := by
  have hstart : ∀ {pc : Nat} {d : Dispatched}, Reaches fb pc →
      dispatch fb.instrs pc = some d → pc ∈ opStarts fb.instrs := by
    intro pc d hreach hd
    rcases staticFits_reaches hs h hreach with hin | hend
    · exact hin
    · exact absurd (dispatch_lt hd) (by omega)
  refine ⟨?_, ?_, ?_⟩
  · intro range hmem
    simp only [staticFits, Bool.and_eq_true, List.all_eq_true, decide_eq_true_eq] at hs
    exact hs.1 range hmem
  · intro pc d hreach hd target htarget
    exact (staticFits_at hs (hstart hreach hd) hd).1 target
      (branchTarget_mem_successors htarget)
  · intro pc d hreach hd r hr
    exact (staticFits_at hs (hstart hreach hd) hd).2 r hr

/-- A loop over a wide load: `load_int.w; jump_if_true → 0; return`. -/
def loopWithWideLoad : FunctionBytecode :=
  .withInstructions
    ((WideOp.loadIntW 0 1).encode ++
      [Instr.newImm16 .jumpIfTrue 0 0, Instr.new .returnOp 0 0 0]) 1

theorem validate_safe_iff_loop : Safe loopWithWideLoad false :=
  (validate_safe_iff loopWithWideLoad false (by decide)).mpr
    (.of_static (by decide) (by decide))

/-- `jump → 2; load_int.w`: the target is a payload word of the load. -/
def jumpIntoPayload : FunctionBytecode :=
  .withInstructions (Instr.newImm24 .jump 2 :: (WideOp.loadIntW 0 1).encode) 1

/-- The jump validates and lands inside the payload. -/
theorem jumpIntoPayload_validates_unsafe :
    jumpIntoPayload.validate = .ok () ∧ ¬ Safe jumpIntoPayload false := by
  refine ⟨by decide, ?_⟩
  intro hsafe
  have hentry : Reaches jumpIntoPayload 0 := .entry
  have hreach : Reaches jumpIntoPayload 2 :=
    hentry.step (d := .narrow ⟨.jump, 0, 0, 2, 1, Instr.newImm24 .jump 2⟩) (by decide) (by decide)
  exact absurd (hsafe 2 hreach).1 (by decide)

end V12.Interp
