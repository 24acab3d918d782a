/-
V12.Bytecode.PositionalWindows — which operand windows the validator accepts.

A positional window is a base register and a count: the elements of a
`NewArray`, the pair of a `DefineAccessor`, the excluded keys of a
`CopyObjectRestW`. The header of a call, two registers and its arguments, is
not one of them: `validate.rs` leaves it unchecked and says so.
-/
import V12.Bytecode.Validate

namespace V12.Bytecode

/-! ## §1 Windows -/

/-- An instruction as the walk checks it: a narrow word with the prefix pending before it,
or a decoded wide operation. -/
inductive Checked where
  | narrow (instr : Instr) (ext : Option RegExtPrefix)
  | wide (op : WideOp)

namespace Checked

def accepted (fb : FunctionBytecode) (pc : Nat) (envs : List Nat) : Checked → Bool
  | narrow instr ext =>
    match instr.op with
    | some op => (checkNarrow fb pc op instr ext envs).isOk
    | none => false
  | wide op => (checkWide fb pc op envs).isOk

/-- The base and the count of the positional window, after prefixes. -/
def window : Checked → Option (Nat × Nat)
  | narrow instr ext =>
    match instr.op with
    | some .newArray => some ((mergeSlot ext instr 1).toNat, (mergeSlot ext instr 2).toNat)
    | some .defineAccessor | some .defineAccessorEnumerable =>
      some ((mergeSlot ext instr 2).toNat, 2)
    | _ => none
  | wide (.copyObjectRestW _ _ exclBase exclCount) => some (exclBase.toNat, exclCount.toNat)
  | wide _ => none

def others : Checked → List Nat
  | narrow instr ext =>
    match instr.op with
    | some .newArray => [(mergeSlot ext instr 0).toNat]
    | some .defineAccessor | some .defineAccessorEnumerable =>
      [(mergeSlot ext instr 0).toNat, (mergeSlot ext instr 1).toNat]
    | _ => []
  | wide (.copyObjectRestW dst src _ _) => [dst.toNat, src.toNat]
  | wide _ => []

/-- Accepted exactly when the window `[base, base + count)`, and the other registers, lie in
the frame. -/
def Exact (fb : FunctionBytecode) (pc : Nat) (envs : List Nat) (i : Checked) (base count : Nat) :
    Prop :=
  i.accepted fb pc envs = true ↔
    (∀ r ∈ i.others, r < fb.maxRegs.toNat) ∧ base + count ≤ fb.maxRegs.toNat

/-- The windows the checks decide as they should: an element window that does not end exactly
at the frame's end, any accessor pair, an exclusion window with its base inside the frame just
when its end is. -/
def Decided (fb : FunctionBytecode) (i : Checked) (base count : Nat) : Prop :=
  match i with
  | narrow instr _ => instr.op = some .newArray → base + count ≠ fb.maxRegs.toNat
  | wide _ => base < fb.maxRegs.toNat ↔ base + count ≤ fb.maxRegs.toNat

/-! ## §2 What the checks accept -/

variable {fb : FunctionBytecode} {pc : Nat} {envs : List Nat} {instr : Instr}
  {ext : Option RegExtPrefix}
variable {ε α : Type} {op : Opcode}

theorem andThen_eq_ok {x : Except ε Unit} {y : Except ε α} {r : α} :
    (do x; y) = .ok r ↔ x = .ok () ∧ y = .ok r := by
  cases x with
  | error e => exact iff_of_false (fun h => by cases h) (fun h => by cases h.1)
  | ok v => exact ⟨fun h => ⟨rfl, h⟩, fun h => h.2⟩

theorem forM_eq_ok {f : α → Except ε Unit} {xs : List α} :
    xs.forM f = .ok () ↔ ∀ x ∈ xs, f x = .ok () := by
  induction xs with
  | nil => exact iff_of_true rfl fun x hx => by cases hx
  | cons x xs ih =>
    show (do f x; xs.forM f) = .ok () ↔ _
    rw [andThen_eq_ok, ih, List.forall_mem_cons]

theorem isOk_iff {x : Except ε α} : x.isOk = true ↔ ∃ r, x = .ok r := by
  cases x with
  | error e => exact iff_of_false (fun h => by cases h) (fun ⟨r, h⟩ => by cases h)
  | ok v => exact iff_of_true rfl ⟨v, rfl⟩

theorem checkRegister_eq_ok {at_ : BitVec 32} {operand : String} {reg : BitVec 16} {maxRegs : Nat} :
    checkRegister at_ op operand reg maxRegs = .ok () ↔ reg.toNat < maxRegs := by
  unfold checkRegister
  split
  case isTrue h => exact iff_of_true rfl h
  case isFalse h => exact iff_of_false (fun heq => by cases heq) h

theorem checkRegisters_eq_ok {at_ : BitVec 32} {operands : Nat → BitVec 16} {maxRegs : Nat} :
    checkRegisters at_ op operands maxRegs = .ok () ↔
      ∀ index ∈ [0, 1, 2], (spec op).indexIsRegister index = true →
        (operands index).toNat < maxRegs := by
  unfold checkRegisters
  rw [forM_eq_ok]
  refine forall₂_congr fun index _ => ?_
  split
  case isTrue hreg =>
    rw [checkRegister_eq_ok]
    exact ⟨fun hlt _ => hlt, fun hlt => hlt hreg⟩
  case isFalse hreg => exact iff_of_true rfl fun h => absurd h hreg

theorem accepted_narrow (hop : instr.op = some op) :
    accepted fb pc envs (narrow instr ext) = true ↔
      checkRegisters (BitVec.ofNat 32 pc) op (mergeSlot ext instr) fb.maxRegs.toNat = .ok () ∧
      checkPositionalWindows (BitVec.ofNat 32 pc) op (mergeSlot ext instr) fb.maxRegs.toNat =
        .ok () ∧
      checkFlags (BitVec.ofNat 32 pc) op instr.bytes = .ok () ∧
      checkConstId (BitVec.ofNat 32 pc) op instr fb.consts.length = .ok () ∧
      checkBranch (BitVec.ofNat 32 pc) op instr fb.instrs.length = .ok () ∧
      checkEnvRoles (BitVec.ofNat 32 pc) op (mergeSlot ext instr)
        (envsAfter op (mergeSlot ext instr) envs) = .ok () := by
  simp only [accepted, hop, checkNarrow, isOk_iff, andThen_eq_ok]
  refine ⟨fun ⟨r, h⟩ => ?_, fun h => ?_⟩
  · exact ⟨h.1, h.2.1, h.2.2.1, h.2.2.2.1, h.2.2.2.2.1, h.2.2.2.2.2.1⟩
  · exact ⟨_, h.1, h.2.1, h.2.2.1, h.2.2.2.1, h.2.2.2.2.1, h.2.2.2.2.2, rfl⟩

theorem accepted_windowed (hop : instr.op = some op)
    (hkind : op = .newArray ∨ op = .defineAccessor ∨ op = .defineAccessorEnumerable) :
    accepted fb pc envs (narrow instr ext) = true ↔
      (∀ index ∈ [0, 1, 2], (spec op).indexIsRegister index = true →
        (mergeSlot ext instr index).toNat < fb.maxRegs.toNat) ∧
      checkPositionalWindows (BitVec.ofNat 32 pc) op (mergeSlot ext instr) fb.maxRegs.toNat =
        .ok () := by
  rw [accepted_narrow hop, checkRegisters_eq_ok]
  refine and_congr_right fun _ => and_iff_left ?_
  rcases hkind with rfl | rfl | rfl <;> exact ⟨rfl, rfl, rfl, rfl⟩

theorem window_eq_ok {P : Prop} [Decidable P] {e : ε} :
    (if P then (.ok () : Except ε Unit) else .error e) = .ok () ↔ P := by
  split
  case isTrue h => exact iff_of_true rfl h
  case isFalse h => exact iff_of_false (fun heq => by cases heq) h

theorem accepted_newArray (hop : instr.op = some .newArray) :
    accepted fb pc envs (narrow instr ext) = true ↔
      (mergeSlot ext instr 0).toNat < fb.maxRegs.toNat ∧
        (mergeSlot ext instr 1).toNat + (mergeSlot ext instr 2).toNat < fb.maxRegs.toNat := by
  rw [accepted_windowed hop (Or.inl rfl), checkPositionalWindows, window_eq_ok]
  constructor
  · rintro ⟨hregs, hwindow⟩
    exact ⟨hregs 0 (by decide) rfl, hwindow⟩
  · rintro ⟨hdst, hwindow⟩
    refine ⟨fun index hindex hreg => ?_, hwindow⟩
    simp only [List.mem_cons, List.not_mem_nil, or_false] at hindex
    rcases hindex with rfl | rfl | rfl
    · exact hdst
    · omega
    · cases hreg

theorem accepted_accessor (hop : instr.op = some op)
    (hkind : op = .defineAccessor ∨ op = .defineAccessorEnumerable) :
    accepted fb pc envs (narrow instr ext) = true ↔
      (mergeSlot ext instr 0).toNat < fb.maxRegs.toNat ∧
        (mergeSlot ext instr 1).toNat < fb.maxRegs.toNat ∧
        (mergeSlot ext instr 2).toNat + 1 < fb.maxRegs.toNat := by
  have hwindow : checkPositionalWindows (BitVec.ofNat 32 pc) op (mergeSlot ext instr)
      fb.maxRegs.toNat = .ok () ↔ (mergeSlot ext instr 2).toNat + 1 < fb.maxRegs.toNat := by
    rcases hkind with rfl | rfl <;> exact window_eq_ok
  have hroles : ∀ index ∈ [0, 1, 2], (spec op).indexIsRegister index = true := by
    rcases hkind with rfl | rfl <;> decide
  rw [accepted_windowed hop (Or.inr hkind), hwindow]
  constructor
  · rintro ⟨hregs, hpair⟩
    exact ⟨hregs 0 (by decide) (hroles 0 (by decide)), hregs 1 (by decide) (hroles 1 (by decide)),
      hpair⟩
  · rintro ⟨hobj, hkey, hpair⟩
    refine ⟨fun index hindex _ => ?_, hpair⟩
    simp only [List.mem_cons, List.not_mem_nil, or_false] at hindex
    rcases hindex with rfl | rfl | rfl
    · exact hobj
    · exact hkey
    · omega

theorem accepted_copyObjectRest (dst src exclBase exclCount : BitVec 16) :
    accepted fb pc envs (wide (.copyObjectRestW dst src exclBase exclCount)) = true ↔
      dst.toNat < fb.maxRegs.toNat ∧ src.toNat < fb.maxRegs.toNat ∧
        exclBase.toNat < fb.maxRegs.toNat := by
  simp only [accepted, checkWide, isOk_iff, andThen_eq_ok, forM_eq_ok, WideOp.eachRegister,
    List.forall_mem_cons, checkRegister_eq_ok]
  constructor
  · rintro ⟨r, ⟨hdst, hsrc, hexcl, -⟩, -⟩
    exact ⟨hdst, hsrc, hexcl⟩
  · rintro ⟨hdst, hsrc, hexcl⟩
    exact ⟨_, ⟨hdst, hsrc, hexcl, fun x hx => by cases hx⟩, rfl, rfl, rfl⟩

/-! ## §3 When acceptance is exact -/

theorem exact_newArray (hop : instr.op = some .newArray) :
    (narrow instr ext).Exact fb pc envs (mergeSlot ext instr 1).toNat
        (mergeSlot ext instr 2).toNat ↔
      ((mergeSlot ext instr 0).toNat < fb.maxRegs.toNat →
        (mergeSlot ext instr 1).toNat + (mergeSlot ext instr 2).toNat ≠ fb.maxRegs.toNat) := by
  rw [Exact, accepted_newArray hop]
  simp only [others, hop, List.forall_mem_cons, List.not_mem_nil, false_imp_iff, implies_true,
    and_true]
  omega

theorem exact_accessor (hop : instr.op = some op)
    (hkind : op = .defineAccessor ∨ op = .defineAccessorEnumerable) :
    (narrow instr ext).Exact fb pc envs (mergeSlot ext instr 2).toNat 2 := by
  have hothers : (narrow instr ext).others =
      [(mergeSlot ext instr 0).toNat, (mergeSlot ext instr 1).toNat] := by
    rcases hkind with rfl | rfl <;> simp only [others, hop]
  rw [Exact, accepted_accessor hop hkind, hothers]
  simp only [List.forall_mem_cons, List.not_mem_nil, false_imp_iff, implies_true, and_true]
  omega

/-- **Exactly which windows are decided right**: whatever the other registers do, the
instruction is accepted just when its whole window is in the frame, if and only if the checks
decide its window. -/
theorem exact_iff_decided (fb : FunctionBytecode) (pc : Nat) (envs : List Nat) (i : Checked)
    (base count : Nat) (hwindow : i.window = some (base, count)) :
    i.Exact fb pc envs base count ↔
      ((∀ r ∈ i.others, r < fb.maxRegs.toNat) → i.Decided fb base count) := by
  cases i with
  | narrow instr ext =>
    have haccessor {op : Opcode} (hop : instr.op = some op)
        (hkind : op = .defineAccessor ∨ op = .defineAccessorEnumerable) :
        (narrow instr ext).Exact fb pc envs (mergeSlot ext instr 2).toNat 2 ↔
          ((∀ r ∈ (narrow instr ext).others, r < fb.maxRegs.toNat) →
            (narrow instr ext).Decided fb (mergeSlot ext instr 2).toNat 2) := by
      refine iff_of_true (exact_accessor hop hkind) fun _ heq => ?_
      rw [hop] at heq
      rcases hkind with rfl | rfl <;> cases heq
    unfold window at hwindow
    cases hop : instr.op with
    | none => simp [hop] at hwindow
    | some op =>
      simp only [hop] at hwindow
      split at hwindow
      case h_1 heq =>
        obtain ⟨rfl, rfl⟩ := Prod.mk.inj (Option.some.inj hwindow)
        obtain rfl := Option.some.inj heq
        rw [exact_newArray hop]
        simp only [others, Decided, hop, List.forall_mem_cons, List.not_mem_nil, false_imp_iff,
          implies_true, and_true, forall_const]
      case h_2 heq =>
        obtain ⟨rfl, rfl⟩ := Prod.mk.inj (Option.some.inj hwindow)
        exact haccessor hop (Or.inl (Option.some.inj heq))
      case h_3 heq =>
        obtain ⟨rfl, rfl⟩ := Prod.mk.inj (Option.some.inj hwindow)
        exact haccessor hop (Or.inr (Option.some.inj heq))
      case h_4 => cases hwindow
  | wide op =>
    cases op with
    | copyObjectRestW dst src exclBase exclCount =>
      obtain ⟨rfl, rfl⟩ := Prod.mk.inj (Option.some.inj hwindow)
      unfold Exact Decided
      rw [accepted_copyObjectRest]
      simp only [others, List.forall_mem_cons, List.not_mem_nil, false_imp_iff, implies_true,
        and_true]
      tauto
    | _ => cases hwindow

/-- Three elements from register 3 on, in a frame of eight. -/
theorem exact_iff_decided_inside :
    (narrow (Instr.new .newArray 0 3 3) none).Exact
      (FunctionBytecode.withInstructions [Instr.new .newArray 0 3 3] 8) 0 [] 3 3 :=
  (exact_iff_decided _ 0 [] _ 3 3 (by decide)).mpr fun _ _ => by decide

/-- Three elements from register 3 on fill a frame of six, and are rejected. -/
theorem not_exact :
    ¬ ∀ (fb : FunctionBytecode) (pc : Nat) (envs : List Nat) (i : Checked) (base count : Nat),
      i.window = some (base, count) → i.Exact fb pc envs base count := by
  intro hall
  have hexact := hall (FunctionBytecode.withInstructions [Instr.new .newArray 0 3 3] 6) 0 []
    (narrow (Instr.new .newArray 0 3 3) none) 3 3 (by decide)
  have haccepted := hexact.mpr ⟨by decide, by decide⟩
  revert haccepted
  decide

end Checked

end V12.Bytecode
