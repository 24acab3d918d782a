/-
V12.Bccompiler.Round — what one round does to the words of a stream.

A kept header is carried over: as it is when it does not read as a branch, and
otherwise with the same opcode and register and a target inside the new
stream (`Rewired`). Threading follows the words a target stands on, and a payload
word can read as a `Jump`, so the targets of the headers have to stay away from
those (`Lands`, `Threading`). What the payload words themselves become is a
condition of its own (`PayloadKept`).
-/
import V12.Bccompiler.Deletable
import V12.Interp.ValidateTheorems

namespace V12.Bccompiler

open V12.Bytecode V12.Interp

variable {n t v i pc : Nat} {w w' : Instr} {instrs : List Instr} {σ : Type}
  {fb fb' : FunctionBytecode} {envs envs' : List Nat}

/-! ## §1 Words carried over -/

def branchOf (word : Instr) : Option Nat := word.op.bind fun op => branchTarget op word

/-- The word of the new stream for a kept word; `n` is the new length. -/
def Rewired (n : Nat) (w w' : Instr) : Prop :=
  (branchOf w = none ∧ w' = w) ∨
    (w'.op = w.op ∧ (w.op ≠ some .jump → w'.a = w.a) ∧ ∃ t, branchOf w' = some t ∧ t ≤ n)

/-- Every word at a place that is not `free` and reads as a branch has a target that `lands`. -/
def Within (lands free : Nat → Prop) (instrs : List Instr) : Prop :=
  ∀ (i : Nat) (w : Instr), ¬ free i → instrs[i]? = some w → ∀ t, branchOf w = some t → lands t

/-- Word for word, but for the words at the `free` places. -/
structure AllRewired (n : Nat) (free : Nat → Prop) (old new : List Instr) : Prop where
  length : new.length = old.length
  word : ∀ (i : Nat) (w : Instr), ¬ free i → old[i]? = some w →
    ∃ w', new[i]? = some w' ∧ Rewired n w w'

theorem Rewired.refl (h : ∀ t, branchOf w = some t → t ≤ n) :
    Rewired n w w := by
  cases hb : branchOf w with
  | none => exact Or.inl ⟨hb, rfl⟩
  | some t => exact Or.inr ⟨rfl, fun _ => rfl, t, hb, h t hb⟩

theorem branchOf_eq_some (h : branchOf w = some t) :
    (w.op = some .jump ∧ t = w.imm24.toNat) ∨
      ((w.op = some .jumpIfFalse ∨ w.op = some .jumpIfTrue ∨ w.op = some .jumpIfNullish) ∧
        t = w.imm16.toNat) := by
  unfold branchOf at h
  obtain ⟨op, hop, htarget⟩ := Option.bind_eq_some_iff.mp h
  rw [hop]
  unfold branchTarget at htarget
  split at htarget
  · exact Or.inl ⟨rfl, (Option.some.inj htarget).symm⟩
  · exact Or.inr ⟨Or.inl rfl, (Option.some.inj htarget).symm⟩
  · exact Or.inr ⟨Or.inr (Or.inl rfl), (Option.some.inj htarget).symm⟩
  · exact Or.inr ⟨Or.inr (Or.inr rfl), (Option.some.inj htarget).symm⟩
  · cases htarget

theorem branchOf_jump (h : w.op = some .jump) : branchOf w = some w.imm24.toNat := by
  rw [branchOf, h]
  rfl

theorem branchOf_conditional
    (h : w.op = some .jumpIfFalse ∨ w.op = some .jumpIfTrue ∨ w.op = some .jumpIfNullish) :
    branchOf w = some w.imm16.toNat := by
  rcases h with h | h | h <;> rw [branchOf, h] <;> rfl

theorem branchOf_isSome_of_op (hop : w'.op = w.op) :
    (branchOf w').isSome = (branchOf w).isSome := by
  unfold branchOf
  rw [hop]
  cases w.op with
  | none => rfl
  | some op => cases op <;> rfl

theorem Rewired.op (h : Rewired n w w') : w'.op = w.op := by
  rcases h with ⟨-, rfl⟩ | ⟨hop, -⟩
  · rfl
  · exact hop

theorem Rewired.trans {w'' : Instr} (h : Rewired n w w') (h' : Rewired n w' w'') :
    Rewired n w w'' := by
  rcases h with ⟨-, rfl⟩ | ⟨hop, ha, t, ht, -⟩
  · exact h'
  · rcases h' with ⟨hnone, -⟩ | ⟨hop', ha', htarget⟩
    · rw [ht] at hnone
      cases hnone
    · refine Or.inr ⟨hop'.trans hop, fun hne => ?_, htarget⟩
      exact (ha' (hop ▸ hne)).trans (ha hne)

/-! ## §2 Setting a target -/

theorem imm24_mask (h : v < 2 ^ 24) :
    (BitVec.ofNat 32 v &&& maxImm24).toNat = v := by
  have hmask : maxImm24.toNat = 2 ^ 24 - 1 := by decide
  rw [BitVec.toNat_and, BitVec.toNat_ofNat, hmask, Nat.and_two_pow_sub_one_eq_mod]
  omega

theorem rewired_setImm24 (hop : w.op = some .jump) (hv : v < 2 ^ 24) (hn : v ≤ n) :
    Rewired n w (w.setImm24 (BitVec.ofNat 32 v)) := by
  refine Or.inr ⟨Instr.op_setImm24 _ _, fun hne => absurd hop hne, v, ?_, hn⟩
  rw [branchOf_jump (by simpa using hop), Instr.imm24_setImm24, imm24_mask hv]

theorem rewired_setImm16
    (hop : w.op = some .jumpIfFalse ∨ w.op = some .jumpIfTrue ∨ w.op = some .jumpIfNullish)
    (hn : v ≤ n) : Rewired n w (w.setImm16 (BitVec.ofNat 16 v)) := by
  refine Or.inr ⟨Instr.op_setImm16 _ _, fun _ => Instr.a_setImm16 _ _, v % 2 ^ 16, ?_, ?_⟩
  · rw [branchOf_conditional (by simpa using hop), Instr.imm16_setImm16, BitVec.toNat_ofNat]
  · exact Nat.le_trans (Nat.mod_le _ _) hn

theorem rewired_remap (keep : List Bool) (w : Instr) :
    Rewired (newIndex keep keep.length) w (remap keep w) := by
  have hle (t : Nat) : newIndex keep (min t keep.length) ≤ newIndex keep keep.length :=
    newIndex_le_length keep _
  have hlt : newIndex keep (min w.imm24.toNat keep.length) < 2 ^ 24 := by
    have := newIndex_le keep (min w.imm24.toNat keep.length)
    have := Instr.imm24_toNat_lt w
    omega
  unfold remap
  split
  case h_1 hop => exact rewired_setImm24 hop hlt (hle _)
  case h_2 hop => exact rewired_setImm16 (Or.inl hop) (hle _)
  case h_3 hop => exact rewired_setImm16 (Or.inr (Or.inl hop)) (hle _)
  case h_4 hop => exact rewired_setImm16 (Or.inr (Or.inr hop)) (hle _)
  case h_5 hjump hfalse htrue hnullish =>
    refine Or.inl ⟨?_, rfl⟩
    cases hb : branchOf w with
    | none => rfl
    | some t =>
      rcases branchOf_eq_some hb with ⟨hop, -⟩ | ⟨hop | hop | hop, -⟩
      · exact absurd hop hjump
      · exact absurd hop hfalse
      · exact absurd hop htrue
      · exact absurd hop hnullish

/-! ## §3 Threading -/

theorem chase_lt (instrs : List Instr) (stop : Option Nat) (hops : Nat) (ht : t < 2 ^ 24) :
    chase instrs stop hops t < 2 ^ 24 := by
  induction hops generalizing t with
  | zero => exact ht
  | succ hops ih =>
    unfold chase
    split
    · exact ht
    · split
      case h_1 word _ =>
        split
        · exact ih (Instr.imm24_toNat_lt word)
        · exact ht
      case h_2 => exact ht

theorem op_threadedWord (h : threadedWord instrs i = some w') :
    ∃ w, instrs[i]? = some w ∧ w'.op = w.op := by
  unfold threadedWord at h
  split at h
  case h_1 => cases h
  case h_2 w hw =>
    refine ⟨w, hw, ?_⟩
    split at h
    case h_5 => cases h
    all_goals
      split at h
      · simp only [Option.some.injEq] at h
        subst h
        simp
      · cases h

theorem op_threadAt (instrs : List Instr) (i k : Nat) :
    (threadAt instrs i)[k]?.map Instr.op = instrs[k]?.map Instr.op := by
  unfold threadAt
  split
  case h_1 w' hw' =>
    obtain ⟨w, hw, hop⟩ := op_threadedWord hw'
    by_cases heq : i = k
    · subst heq
      rw [List.getElem?_set_self (List.getElem?_eq_some_iff.mp hw).1, hw]
      simp [hop]
    · rw [List.getElem?_set_ne heq]
  case h_2 => rfl

theorem op_thread (instrs : List Instr) (k : Nat) :
    (thread instrs)[k]?.map Instr.op = instrs[k]?.map Instr.op := by
  have hturns (is : List Nat) (words : List Instr) :
      (is.foldl threadAt words)[k]?.map Instr.op = words[k]?.map Instr.op := by
    induction is generalizing words with
    | nil => rfl
    | cons i is ih => rw [List.foldl_cons, ih, op_threadAt]
  exact hturns _ _

theorem length_thread (instrs : List Instr) : (thread instrs).length = instrs.length := by
  have hturns (is : List Nat) (words : List Instr) :
      (is.foldl threadAt words).length = words.length := by
    induction is generalizing words with
    | nil => rfl
    | cons i is ih =>
      rw [List.foldl_cons, ih]
      unfold threadAt
      split
      · exact List.length_set
      · rfl
  exact hturns _ _

section Threading

variable {lands free : Nat → Prop} {old new : List Instr} {left : List Nat}

/-- The state of the loop: the words whose turns are `left` are as they were, and a word that has
had its turn is rewired. -/
structure Threading (n : Nat) (lands free : Nat → Prop) (old new : List Instr) (left : List Nat) :
    Prop where
  rewired : AllRewired n free old new
  untouched : ∀ i ∈ left, new[i]? = old[i]?
  jumps : ∀ (i : Nat) (w : Instr), ¬ free i → new[i]? = some w → w.op = some .jump →
    lands w.imm24.toNat
  ops : ∀ i : Nat, new[i]?.map Instr.op = old[i]?.map Instr.op

/-- A target that lands is on no free place whose word reads as a `Jump`. -/
def Clear (lands free : Nat → Prop) (old : List Instr) : Prop :=
  ∀ (t : Nat) (w : Instr), lands t → free t → old[t]? = some w → w.op ≠ some .jump

theorem Threading.chase (h : Threading n lands free old new left) (hclear : Clear lands free old)
    (stop : Option Nat) (hops : Nat) (ht : lands t) : lands (chase new stop hops t) := by
  induction hops generalizing t with
  | zero => exact ht
  | succ hops ih =>
    unfold Bccompiler.chase
    split
    · exact ht
    · split
      case h_1 word hword =>
        split
        case isTrue hop =>
          refine ih (h.jumps t word (fun hfree => ?_) hword hop)
          have hsame := h.ops t
          rw [hword, Option.map_some] at hsame
          obtain ⟨w, hw, hold⟩ := Option.map_eq_some_iff.mp hsame.symm
          exact hclear t w ht hfree hw (hold.trans hop)
        case isFalse => exact ht
      case h_2 => exact ht

theorem Threading.word (h : Threading n lands free old new left) (hclear : Clear lands free old)
    (hle : ∀ t, lands t → t ≤ n) (hw : new[i]? = some w)
    (htarget : ∀ t, branchOf w = some t → lands t) (hw' : threadedWord new i = some w') :
    Rewired n w w' ∧ (w'.op = some .jump → lands w'.imm24.toNat) := by
  have hconditional (hop : w.op = some .jumpIfFalse ∨ w.op = some .jumpIfTrue ∨
      w.op = some .jumpIfNullish) :
      Rewired n w (w.setImm16 (BitVec.ofNat 16 (Bccompiler.chase new none 16 w.imm16.toNat))) ∧
        ((w.setImm16 (BitVec.ofNat 16 (Bccompiler.chase new none 16 w.imm16.toNat))).op =
          some .jump → lands (w.setImm16
            (BitVec.ofNat 16 (Bccompiler.chase new none 16 w.imm16.toNat))).imm24.toNat) := by
    have hlands := h.chase hclear none 16 (htarget _ (branchOf_conditional hop))
    refine ⟨rewired_setImm16 hop (hle _ hlands), fun hjump => ?_⟩
    rw [Instr.op_setImm16] at hjump
    rw [hjump] at hop
    rcases hop with hop | hop | hop <;> cases hop
  unfold threadedWord at hw'
  rw [hw] at hw'
  simp only at hw'
  split at hw'
  case h_1 hop =>
    split at hw'
    case isFalse => cases hw'
    case isTrue =>
      cases hw'
      have hlands := h.chase hclear (some i) 16 (htarget _ (branchOf_jump hop))
      have hlt := chase_lt new (some i) 16 (Instr.imm24_toNat_lt w)
      refine ⟨rewired_setImm24 hop hlt (hle _ hlands), fun _ => ?_⟩
      rwa [Instr.imm24_setImm24, imm24_mask hlt]
  case h_2 hop =>
    split at hw'
    case isFalse => cases hw'
    case isTrue =>
      cases hw'
      exact hconditional (Or.inl hop)
  case h_3 hop =>
    split at hw'
    case isFalse => cases hw'
    case isTrue =>
      cases hw'
      exact hconditional (Or.inr (Or.inl hop))
  case h_4 hop =>
    split at hw'
    case isFalse => cases hw'
    case isTrue =>
      cases hw'
      exact hconditional (Or.inr (Or.inr hop))
  case h_5 => cases hw'

/-- One turn of the loop. -/
theorem Threading.turn (hwithin : Within lands free old) (hclear : Clear lands free old)
    (hle : ∀ t, lands t → t ≤ n) (h : Threading n lands free old new (i :: left))
    (hnew : i ∉ left) : Threading n lands free old (threadAt new i) left := by
  have hops (k : Nat) : (threadAt new i)[k]?.map Instr.op = old[k]?.map Instr.op :=
    (op_threadAt new i k).trans (h.ops k)
  have huntouched := h.untouched i List.mem_cons_self
  cases hword : threadedWord new i with
  | none =>
    have hsame : threadAt new i = new := by rw [threadAt, hword]
    rw [hsame] at hops ⊢
    exact ⟨h.rewired, fun k hk => h.untouched k (List.mem_cons_of_mem i hk), h.jumps, hops⟩
  | some word =>
    have hset : threadAt new i = new.set i word := by rw [threadAt, hword]
    obtain ⟨w, hw, -⟩ := op_threadedWord hword
    have hlt := (List.getElem?_eq_some_iff.mp hw).1
    have hturn (hfree : ¬ free i) := h.word hclear hle hw
      (hwithin i w hfree (huntouched ▸ hw)) hword
    rw [hset] at hops ⊢
    refine ⟨⟨List.length_set.trans h.rewired.length, fun k w₀ hfree hw₀ => ?_⟩, fun k hk => ?_,
      fun k w' hfree hw' hop => ?_, hops⟩
    · by_cases hk : i = k
      · subst hk
        rw [← huntouched, hw, Option.some.injEq] at hw₀
        exact ⟨word, List.getElem?_set_self hlt, hw₀ ▸ (hturn hfree).1⟩
      · rw [List.getElem?_set_ne hk]
        exact h.rewired.word k w₀ hfree hw₀
    · have hne : i ≠ k := fun heq => hnew (heq ▸ hk)
      rw [List.getElem?_set_ne hne]
      exact h.untouched k (List.mem_cons_of_mem i hk)
    · by_cases hk : i = k
      · subst hk
        rw [List.getElem?_set_self hlt, Option.some.injEq] at hw'
        subst hw'
        exact (hturn hfree).2 hop
      · rw [List.getElem?_set_ne hk] at hw'
        exact h.jumps k w' hfree hw' hop

/-- **Threading rewires word for word.** -/
theorem allRewired_thread (hwithin : Within lands free old) (hclear : Clear lands free old)
    (hle : ∀ t, lands t → t ≤ n) : AllRewired n free old (thread old) := by
  have hturns (left : List Nat) : ∀ {new : List Instr}, left.Nodup →
      Threading n lands free old new left →
      AllRewired n free old (left.foldl threadAt new) := by
    induction left with
    | nil => exact fun _ h => h.rewired
    | cons i left ih =>
      intro new hnodup h
      obtain ⟨hnew, hrest⟩ := List.nodup_cons.mp hnodup
      exact ih hrest (h.turn hwithin hclear hle hnew)
  refine hturns _ List.nodup_range ⟨⟨rfl, fun i w hfree hw => ⟨w, hw, .refl fun t ht => ?_⟩⟩,
    fun _ _ => rfl, fun i w hfree hw hop => ?_, fun _ => rfl⟩
  · exact hle t (hwithin i w hfree hw t ht)
  · exact hwithin i w hfree hw _ (branchOf_jump hop)

end Threading

/-! ## §4 The words of a round -/

def compactedOf (instrs : List Instr) : List Instr :=
  if false ∈ keepOf instrs then (compact (keepOf instrs) (foldedOf instrs)).map (remap (keepOf instrs))
  else instrs

def roundOf (instrs : List Instr) : List Instr := thread (compactedOf instrs)

theorem compacted_instrs (c : Code σ) :
    (compacted c).instrs = compactedOf c.instrs := by
  by_cases hdel : false ∈ (markRound c.instrs).keep
  · rw [compacted, compactedOf, keepOf, foldedOf, if_pos hdel]
    simp only [hdel, if_true]
    rfl
  · rw [compacted, compactedOf, keepOf, if_neg hdel]
    simp only [hdel, if_false]

theorem round_instrs (c : Code σ) : (round c).1.instrs = roundOf c.instrs := by
  rw [roundOf, ← compacted_instrs]
  rfl

theorem round_changed (c : Code σ) : (round c).2 =
    (decide (false ∈ keepOf c.instrs) || threads (compactedOf c.instrs)) := by
  rw [← compacted_instrs]
  rfl

def keptCount (instrs : List Instr) : Nat := newIndex (keepOf instrs) instrs.length

theorem newIndex_keepOf_length (instrs : List Instr) :
    newIndex (keepOf instrs) (keepOf instrs).length = keptCount instrs := by
  rw [length_keepOf]
  rfl

theorem length_compactedOf (instrs : List Instr) :
    (compactedOf instrs).length = keptCount instrs := by
  unfold compactedOf
  split
  case isTrue =>
    rw [List.length_map, length_compact (by simp), newIndex_keepOf_length]
  case isFalse h => exact (newIndex_of_all_kept h (by simp)).symm

theorem branchOf_folded {k : Nat} {word : Instr} (h : Folded instrs k word) :
    branchOf word = none := by
  obtain ⟨w1, w2, w3, -, -, -, htriple⟩ := h.words
  obtain ⟨-, -, -, v, hv⟩ := foldTriple_ops htriple
  rw [hv, branchOf, Instr.op_new]
  rfl

theorem compactedOf_kept (hkeep : (keepOf instrs)[i]? = some true)
    (hw : (foldedOf instrs)[i]? = some w) :
    (compactedOf instrs)[newIndex (keepOf instrs) i]? =
      some (if false ∈ keepOf instrs then remap (keepOf instrs) w else w) := by
  unfold compactedOf
  split
  case isTrue =>
    rw [List.getElem?_map, getElem?_compact hkeep, hw]
    rfl
  case isFalse hnone =>
    have hlt := kept_lt_length hkeep
    rw [length_keepOf] at hlt
    rcases foldedOf_cases instrs i with hsame | ⟨_, -, -, -, hdel, -⟩
    · rw [newIndex_of_all_kept hnone (by simp; omega), ← hsame, hw]
    · exact absurd (List.mem_of_getElem? hdel) hnone

/-- A word in the payload of a wide instruction that reads as a `Jump`. -/
def JumpPayload (instrs : List Instr) (i : Nat) : Prop :=
  (widths instrs)[i]? = some 0 ∧ instrs[i]?.bind Instr.op = some .jump

/-- A target in the body, and on no payload word that reads as a `Jump`. -/
def Lands (instrs : List Instr) (t : Nat) : Prop := t ≤ instrs.length ∧ ¬ JumpPayload instrs t

def IsPayload (instrs : List Instr) (i : Nat) : Prop := (widths instrs)[i]? = some 0

/-- The payload words and the targets of the compacted stream. -/
def PayloadMoved (instrs : List Instr) (j : Nat) : Prop :=
  ∃ i, (keepOf instrs)[i]? = some true ∧ IsPayload instrs i ∧ newIndex (keepOf instrs) i = j

def LandsMoved (instrs : List Instr) (t : Nat) : Prop :=
  t ≤ keptCount instrs ∧ ∀ i, (keepOf instrs)[i]? = some true → JumpPayload instrs i →
    newIndex (keepOf instrs) i ≠ t

/-- The word in front of a payload word that stays stays. -/
theorem kept_front (hpayload : IsPayload instrs (i + 1)) (hkeep : (keepOf instrs)[i + 1]? = some true) :
    (keepOf instrs)[i]? = some true := by
  have hlt : i + 1 < instrs.length := by simpa using kept_lt_length hkeep
  obtain ⟨pc, k, hpc, hk, heq⟩ := exists_header hlt
  have hpos : k ≠ 0 := by
    rintro rfl
    exact (atHeader_iff (by omega)).mp hpc (by rwa [← Nat.add_zero pc, ← heq])
  obtain ⟨k, rfl⟩ := Nat.exists_eq_succ_of_ne_zero hpos
  obtain rfl : i = pc + k := by omega
  rw [keepOf_payload hpc (by omega) (by omega), ← keepOf_payload hpc hk (by omega)]
  exact hkeep

theorem landsMoved_newIndex (h : Lands instrs t) : LandsMoved instrs (newIndex (keepOf instrs) t) := by
  refine ⟨newIndex_mono _ h.1, fun i hkeep hjump heq => ?_⟩
  have hnotBehind : ¬ i < t := fun hlt => by
    have := (newIndex_lt_iff hkeep t).mpr hlt
    omega
  rcases Nat.eq_or_lt_of_le (Nat.le_of_not_lt hnotBehind) with rfl | hlt
  · exact h.2 hjump
  · obtain ⟨i, rfl⟩ : ∃ k, i = k + 1 := ⟨i - 1, by omega⟩
    have hfront := kept_front hjump.1 hkeep
    have hmono := newIndex_mono (keepOf instrs) (show t ≤ i by omega)
    rw [newIndex_kept hfront] at heq
    omega

theorem branchOf_remap (keep : List Bool) (w : Instr) :
    branchOf (remap keep w) = (branchOf w).map fun t => newIndex keep (min t keep.length) := by
  have himm16 (hop : w.op = some .jumpIfFalse ∨ w.op = some .jumpIfTrue ∨
      w.op = some .jumpIfNullish) :
      branchOf (w.setImm16 (BitVec.ofNat 16 (newIndex keep (min w.imm16.toNat keep.length)))) =
        (branchOf w).map fun t => newIndex keep (min t keep.length) := by
    have hle := newIndex_le keep (min w.imm16.toNat keep.length)
    have hlt := w.imm16.isLt
    rw [branchOf_conditional (by simpa using hop), branchOf_conditional hop, Instr.imm16_setImm16,
      BitVec.toNat_ofNat, Nat.mod_eq_of_lt (by omega), Option.map_some]
  unfold remap
  split
  case h_1 hop =>
    have hle := newIndex_le keep (min w.imm24.toNat keep.length)
    have hlt := Instr.imm24_toNat_lt w
    rw [branchOf_jump (by simpa using hop), branchOf_jump hop, Instr.imm24_setImm24,
      imm24_mask (by omega), Option.map_some]
  case h_2 hop => exact himm16 (Or.inl hop)
  case h_3 hop => exact himm16 (Or.inr (Or.inl hop))
  case h_4 hop => exact himm16 (Or.inr (Or.inr hop))
  case h_5 hjump hfalse htrue hnullish =>
    cases hb : branchOf w with
    | none => rfl
    | some t =>
      rcases branchOf_eq_some hb with ⟨hop, -⟩ | ⟨hop | hop | hop, -⟩
      · exact absurd hop hjump
      · exact absurd hop hfalse
      · exact absurd hop htrue
      · exact absurd hop hnullish

theorem within_compactedOf (h : Within (Lands instrs) (IsPayload instrs) instrs) :
    Within (LandsMoved instrs) (PayloadMoved instrs) (compactedOf instrs) := by
  intro j w' hfree hw' t ht
  have hj := (List.getElem?_eq_some_iff.mp hw').1
  rw [length_compactedOf] at hj
  obtain ⟨i, hi, hkeep, rfl⟩ := exists_kept hj
  obtain ⟨wf, hfolded⟩ : ∃ wf, (foldedOf instrs)[i]? = some wf :=
    ⟨_, List.getElem?_eq_getElem (by simpa using hi)⟩
  have hmoved := compactedOf_kept hkeep hfolded
  rw [hw', Option.some.injEq] at hmoved
  -- a folded word is no branch
  have hlands (t₀ : Nat) (ht₀ : branchOf wf = some t₀) :
      Lands instrs t₀ := by
    rcases foldedOf_cases instrs i with hsame | ⟨word, hfold, hword, -⟩
    · exact h i _ (fun hpayload => hfree ⟨i, hkeep, hpayload, rfl⟩) (hsame ▸ hfolded) t₀ ht₀
    · rw [hfolded, Option.some.injEq] at hword
      rw [hword, branchOf_folded hfold] at ht₀
      cases ht₀
  split at hmoved
  case isTrue =>
    rw [hmoved, branchOf_remap] at ht
    obtain ⟨t₀, ht₀, rfl⟩ := Option.map_eq_some_iff.mp ht
    have hland := hlands t₀ ht₀
    rw [Nat.min_eq_left (by simpa using hland.1)]
    exact landsMoved_newIndex hland
  case isFalse hnone =>
    have hland := hlands t (hmoved ▸ ht)
    have hmove := landsMoved_newIndex hland
    rwa [newIndex_of_all_kept hnone (by simpa using hland.1)] at hmove

@[simp] theorem op_remap (keep : List Bool) (word : Instr) : (remap keep word).op = word.op := by
  unfold remap
  split <;> simp

theorem op_foldedOf (instrs : List Instr) (k : Nat) :
    (foldedOf instrs)[k]?.map Instr.op = instrs[k]?.map Instr.op := by
  rcases foldedOf_cases instrs k with hsame | ⟨word, hfold, hword, -⟩
  · rw [hsame]
  · -- a literal takes the place of a literal
    obtain ⟨w1, _, _, h1, -, -, htriple⟩ := hfold.words
    obtain ⟨hop1, -, -, v, rfl⟩ := foldTriple_ops htriple
    rw [hword, h1, Option.map_some, Option.map_some, Instr.op_new, hop1]

theorem op_compactedOf (hkeep : (keepOf instrs)[i]? = some true) :
    (compactedOf instrs)[newIndex (keepOf instrs) i]?.map Instr.op = instrs[i]?.map Instr.op := by
  have hlt : i < (foldedOf instrs).length := by simpa using kept_lt_length hkeep
  rw [← op_foldedOf instrs, compactedOf_kept hkeep (List.getElem?_eq_getElem hlt),
    List.getElem?_eq_getElem hlt, Option.map_some, Option.map_some]
  split <;> simp

theorem clear_compactedOf (instrs : List Instr) :
    Clear (LandsMoved instrs) (PayloadMoved instrs) (compactedOf instrs) := by
  rintro t w hlands ⟨i, hkeep, hpayload, rfl⟩ hw hop
  have hsame := op_compactedOf hkeep
  rw [hw, Option.map_some] at hsame
  obtain ⟨w₀, hw₀, hop₀⟩ := Option.map_eq_some_iff.mp hsame.symm
  exact hlands.2 i hkeep ⟨hpayload, by rw [hw₀, Option.bind_some, hop₀, hop]⟩ rfl

theorem length_roundOf (instrs : List Instr) : (roundOf instrs).length = keptCount instrs :=
  (length_thread _).trans (length_compactedOf instrs)

/-- **A kept header is carried over.** -/
theorem roundOf_kept (h : Within (Lands instrs) (IsPayload instrs) instrs)
    (hkeep : (keepOf instrs)[i]? = some true) (hheader : ¬ IsPayload instrs i)
    (hw : (foldedOf instrs)[i]? = some w) :
    ∃ w', (roundOf instrs)[newIndex (keepOf instrs) i]? = some w' ∧
      Rewired (keptCount instrs) w w' := by
  have hfree : ¬ PayloadMoved instrs (newIndex (keepOf instrs) i) := by
    rintro ⟨k, hkeep', hpayload, heq⟩
    have hik := newIndex_lt_iff hkeep k
    have hki := newIndex_lt_iff hkeep' i
    obtain rfl : k = i := by omega
    exact hheader hpayload
  have hwithin := within_compactedOf h
  have hmoved := compactedOf_kept hkeep hw
  obtain ⟨w₂, hw₂, hr₂⟩ := (allRewired_thread hwithin (clear_compactedOf instrs)
    (fun t ht => ht.1)).word _ _ hfree hmoved
  refine ⟨w₂, hw₂, Rewired.trans ?_ hr₂⟩
  split
  case isTrue =>
    rw [← newIndex_keepOf_length]
    exact rewired_remap _ w
  case isFalse hnone =>
    rw [if_neg hnone] at hmoved
    exact .refl fun t ht => (hwithin _ w hfree hmoved t ht).1

/-! ## §5 What the source leaves unchecked -/

/-- The round rewires no payload word. -/
def PayloadKept (instrs : List Instr) : Prop :=
  ∀ (i : Nat) (w : Instr), IsPayload instrs i → (keepOf instrs)[i]? = some true →
    instrs[i]? = some w → (roundOf instrs)[newIndex (keepOf instrs) i]? = some w

/-- No branch goes to a payload word that reads as a `Jump`. -/
def TargetsClear (instrs : List Instr) : Prop :=
  ∀ (i : Nat) (w : Instr) (t : Nat), ¬ IsPayload instrs i → instrs[i]? = some w →
    branchOf w = some t → ¬ JumpPayload instrs t

/-- The instruction behind a `RegExt` prefix is neither deleted nor folded. -/
def PrefixesHold (instrs : List Instr) : Prop :=
  ∀ (pc width : Nat) (mask aHi bHi cHi : BitVec 8), AtHeader instrs pc →
    WideOp.tryDecode (instrs.drop pc) = .ok (.regExt mask aHi bHi cHi, width) →
      (keepOf instrs)[pc + width]? ≠ some false ∧
        (foldedOf instrs)[pc + width]? = instrs[pc + width]?

theorem tryDecode_congr {words words' : List Instr} {op : WideOp} {width : Nat}
    (h : WideOp.tryDecode words = .ok (op, width))
    (hsame : ∀ i, i < width → words'[i]? = words[i]?) :
    WideOp.tryDecode words' = .ok (op, width) := by
  obtain ⟨header, rest, rfl, hop, hbody⟩ := WideOp.tryDecode_ok h
  obtain ⟨hdisc, hlen, -⟩ := WideOp.tryDecode_layout h
  have hpos := WideOp.encode_length_pos op
  have h0 := hsame 0 (by omega)
  obtain ⟨rest', rfl⟩ : ∃ rest', words' = header :: rest' := by
    cases words' with
    | nil => simp at h0
    | cons header' rest' =>
      rw [List.getElem?_cons_zero, List.getElem?_cons_zero, Option.some.injEq] at h0
      exact ⟨rest', h0 ▸ rfl⟩
  simp only [WideOp.tryDecode, hop, ne_eq, not_true_eq_false, if_false]
  unfold WideOp.decodeBody at hbody ⊢
  split at hbody
  case h_18 => cases hbody
  case h_2 =>
    obtain ⟨w1, hw1, hbody⟩ := WideOp.bind_payload_ok hbody
    obtain ⟨w2, hw2, hbody⟩ := WideOp.bind_payload_ok hbody
    obtain ⟨w3, hw3, hbody⟩ := WideOp.bind_payload_ok hbody
    cases hbody
    have h1 := (hsame 1 (by omega)).trans hw1
    have h2 := (hsame 2 (by omega)).trans hw2
    have h3 := (hsame 3 (by omega)).trans hw3
    simp only [WideOp.payload, h1, h2, h3]
    rfl
  case h_9 | h_10 | h_11 =>
    obtain ⟨w1, hw1, hbody⟩ := WideOp.bind_payload_ok hbody
    cases hbody
    have h1 := (hsame 1 (by omega)).trans hw1
    simp only [WideOp.payload, h1]
    rfl
  all_goals
    obtain ⟨w1, hw1, hbody⟩ := WideOp.bind_payload_ok hbody
    obtain ⟨w2, hw2, hbody⟩ := WideOp.bind_payload_ok hbody
    cases hbody
    have h1 := (hsame 1 (by omega)).trans hw1
    have h2 := (hsame 2 (by omega)).trans hw2
    simp only [WideOp.payload, h1, h2]
    rfl

/-! ## §6 A check does not depend on where it is made -/

theorem forM_ok_iff {ε α : Type} {f : α → Except ε PUnit} {xs : List α} :
    xs.forM f = .ok () ↔ ∀ x ∈ xs, f x = .ok () := by
  refine ⟨forM_ok, fun h => ?_⟩
  induction xs with
  | nil => rfl
  | cons x xs ih =>
    have hx := h x (List.mem_cons_self ..)
    have hxs := ih fun y hy => h y (List.mem_cons_of_mem x hy)
    show (f x >>= fun _ => xs.forM f) = .ok ()
    rw [hx]
    exact hxs

section Position

variable (at₁ at₂ : BitVec 32) (op : Opcode)
variable {maxRegs : Nat} {operands : Nat → BitVec 16}

theorem checkRegister_moved {operand : String} {reg : BitVec 16}
    (h : checkRegister at₁ op operand reg maxRegs = .ok ()) :
    checkRegister at₂ op operand reg maxRegs = .ok () := by
  unfold checkRegister
  rw [if_pos (checkRegister_ok h)]

theorem checkRegisters_moved {operands' : Nat → BitVec 16}
    (h : checkRegisters at₁ op operands maxRegs = .ok ())
    (hsame : ∀ index, (spec op).indexIsRegister index = true → operands' index = operands index) :
    checkRegisters at₂ op operands' maxRegs = .ok () := by
  unfold checkRegisters at h ⊢
  refine forM_ok_iff.mpr fun index hindex => ?_
  have hx := forM_ok h index hindex
  by_cases hreg : (spec op).indexIsRegister index = true
  · rw [if_pos hreg] at hx ⊢
    rw [hsame index hreg]
    exact checkRegister_moved at₁ at₂ op hx
  · rw [if_neg hreg]

theorem checkPositionalWindows_moved (h : checkPositionalWindows at₁ op operands maxRegs = .ok ()) :
    checkPositionalWindows at₂ op operands maxRegs = .ok () := by
  unfold checkPositionalWindows at h ⊢
  dsimp only at h ⊢
  split at h
  case h_4 => rfl
  all_goals
    split at h
    · split
      · rfl
      · contradiction
    · cases h

theorem checkFlags_moved {bytes : Nat → BitVec 8} (h : checkFlags at₁ op bytes = .ok ()) :
    checkFlags at₂ op bytes = .ok () := by
  unfold checkFlags at h ⊢
  refine forM_ok_iff.mpr fun index hindex => ?_
  have hx := forM_ok h index hindex
  split at hx
  · cases hx
  case isFalse hflag => rw [if_neg hflag]

theorem checkEnvAccess_moved {depth slot : Nat} {envs : List Nat}
    (h : checkEnvAccess at₁ op depth slot envs = .ok ()) :
    checkEnvAccess at₂ op depth slot envs = .ok () := by
  unfold checkEnvAccess at h ⊢
  split
  case isTrue hdepth =>
    rw [if_pos hdepth] at h
    split at h
    case h_1 slots hslots =>
      split at h
      case isTrue hslot => rw [if_pos hslot]
      case isFalse => cases h
    case h_2 => rfl
  case isFalse => rfl

theorem checkEnvRoles_moved {envs : List Nat} (h : checkEnvRoles at₁ op operands envs = .ok ()) :
    checkEnvRoles at₂ op operands envs = .ok () := by
  unfold checkEnvRoles at h ⊢
  split at h
  case h_1 => exact checkEnvAccess_moved at₁ at₂ op h
  case h_2 => rfl

end Position

/-! ## §7 One instruction in the new stream -/

/-- The function with the words of a round. -/
structure SameFrame (fb fb' : FunctionBytecode) : Prop where
  instrs : fb'.instrs = roundOf fb.instrs
  maxRegs : fb'.maxRegs = fb.maxRegs
  consts : fb'.consts = fb.consts

theorem mergeSlot_zero (ha : w'.a = w.a) (ext : Option RegExtPrefix) :
    mergeSlot ext w' 0 = mergeSlot ext w 0 := by
  simp [mergeSlot, Instr.bytes, ha]

theorem checkNarrow_branch (pc : Nat) {op : Opcode} (ext : Option RegExtPrefix) (envs : List Nat)
    (hop : w.op = some op) (ht : branchOf w = some t)
    (hreg : op ≠ .jump → (mergeSlot ext w 0).toNat < fb.maxRegs.toNat)
    (hle : t ≤ fb.instrs.length % 2 ^ 32) : checkNarrow fb pc op w ext envs = .ok envs := by
  have htarget : branchTarget op w = some t := by
    rw [branchOf, hop] at ht
    exact ht
  have hbranch : checkBranch (BitVec.ofNat 32 pc) op w fb.instrs.length = .ok () := by
    rw [checkBranch, htarget]
    simp only
    rw [if_neg (by omega)]
  rcases branchOf_eq_some ht with ⟨hop', -⟩ | ⟨hop', -⟩
  · cases hop.symm.trans hop'
    simp only [checkNarrow, hbranch]
    rfl
  · have hne : op ≠ .jump := by
      rintro rfl
      rw [hop] at hop'
      rcases hop' with h | h | h <;> cases h
    have hreg0 := hreg hne
    have hregs : checkRegister (BitVec.ofNat 32 pc) op (Role.name .cond) (mergeSlot ext w 0)
        fb.maxRegs.toNat = .ok () := by rw [checkRegister, if_pos hreg0]
    rw [hop] at hop'
    rcases hop' with h | h | h <;> cases h <;>
      (simp only [checkNarrow, hbranch, checkRegisters]
       show (checkRegister _ _ (Role.name .cond) _ _ >>= _) >>= _ = _
       rw [hregs]
       rfl)

/-- **A narrow instruction carried over is accepted where the old one was.** -/
theorem checkNarrow_carried (hframe : SameFrame fb fb') (hlen : fb'.instrs.length < 2 ^ 32)
    (pc' : Nat) {op : Opcode} (hop : w.op = some op) (hr : Rewired fb'.instrs.length w w')
    {ext : Option RegExtPrefix} (h : checkNarrow fb pc op w ext envs = .ok envs') :
    checkNarrow fb' pc' op w' ext envs = .ok envs' := by
  have hregs := (checkNarrow_ok h).1
  rcases hr with ⟨hnone, rfl⟩ | ⟨hop', ha, t, ht, hle⟩
  · obtain ⟨_, -, h⟩ := bind_ok h
    obtain ⟨_, hwin, h⟩ := bind_ok h
    obtain ⟨_, hflags, h⟩ := bind_ok h
    obtain ⟨_, hconst, h⟩ := bind_ok h
    obtain ⟨_, -, h⟩ := bind_ok h
    obtain ⟨_, henv, h⟩ := bind_ok h
    have htarget : branchTarget op w' = none := by
      rw [branchOf, hop] at hnone
      exact hnone
    have hregs' := checkRegisters_moved _ (BitVec.ofNat 32 pc') op hregs (fun _ _ => rfl)
    have hwin' := checkPositionalWindows_moved _ (BitVec.ofNat 32 pc') op hwin
    have hflags' := checkFlags_moved _ (BitVec.ofNat 32 pc') op hflags
    have hconst' : checkConstId (BitVec.ofNat 32 pc') op w' fb.consts.length = .ok () := by
      unfold checkConstId at hconst ⊢
      split at hconst
      · cases hconst
      case isFalse hid => rw [if_neg hid]
    have hbranch' : checkBranch (BitVec.ofNat 32 pc') op w' fb'.instrs.length = .ok () := by
      rw [checkBranch, htarget]
    have henv' := checkEnvRoles_moved _ (BitVec.ofNat 32 pc') op henv
    simp only [checkNarrow, hframe.maxRegs, hframe.consts, hregs', hwin', hflags', hconst', hbranch',
      henv']
    exact h
  · -- the old word is a branch too, and its check leaves the environments alone
    have hold : (branchOf w).isSome := by
      rw [← branchOf_isSome_of_op hop', ht]
      rfl
    obtain ⟨t₀, ht₀⟩ := Option.isSome_iff_exists.mp hold
    have hbranch := (checkNarrow_ok h).2.2
    have htarget : branchTarget op w = some t₀ := by
      rw [branchOf, hop] at ht₀
      exact ht₀
    have hreg (hne : op ≠ .jump) : (mergeSlot ext w 0).toNat < fb.maxRegs.toNat := by
      refine checkRegisters_ok hregs (by omega) ?_
      rcases branchOf_eq_some ht₀ with ⟨h', -⟩ | ⟨h', -⟩
      · exact absurd (Option.some.inj (hop.symm.trans h')) hne
      · rw [hop] at h'
        rcases h' with h' | h' | h' <;> cases h' <;> rfl
    have hle₀ : t₀ ≤ fb.instrs.length % 2 ^ 32 := by
      unfold checkBranch at hbranch
      rw [htarget] at hbranch
      simp only at hbranch
      split at hbranch
      · cases hbranch
      · omega
    have henvs : envs' = envs := by
      have hsame := checkNarrow_branch pc ext envs hop ht₀ hreg hle₀
      rw [h] at hsame
      exact Except.ok.inj hsame
    rw [henvs]
    refine checkNarrow_branch pc' ext envs (hop'.trans hop) ht (fun hne => ?_) ?_
    · rw [hframe.maxRegs, mergeSlot_zero (ha (by rw [hop]; simpa using hne))]
      exact hreg hne
    · omega

theorem checkWide_carried (hframe : SameFrame fb fb') (pc' : Nat) {wide : WideOp}
    (h : checkWide fb pc wide envs = .ok envs') : checkWide fb' pc' wide envs = .ok envs' := by
  obtain ⟨_, hregs, h⟩ := bind_ok h
  obtain ⟨_, hconst, h⟩ := bind_ok h
  obtain ⟨_, henv, h⟩ := bind_ok h
  have hconst' : checkWideConstId (BitVec.ofNat 32 pc') wide fb.consts.length = .ok () := by
    unfold checkWideConstId at hconst ⊢
    split at hconst
    · split at hconst
      · cases hconst
      case isFalse hid => rw [if_neg hid]
    · rfl
  have henv' : checkWideEnv (BitVec.ofNat 32 pc') wide (wideEnvsAfter wide envs) = .ok () := by
    unfold checkWideEnv at henv ⊢
    split at henv
    · exact checkEnvAccess_moved _ _ .wide henv
    · rfl
  simp only [checkWide, hframe.maxRegs, hframe.consts]
  refine bind_of_ok (forM_ok_iff.mpr fun x hx =>
    checkRegister_moved _ _ .wide (forM_ok hregs x hx)) ?_
  rw [hconst', henv']
  exact h

/-! ## §8 The walk over the new stream -/

section Walk

variable {fb : FunctionBytecode} {fuel pc : Nat} {pending : Option RegExtPrefix} {envs : List Nat}

theorem checkFrom_eq_bind {op : Opcode} {w : Instr} (hget : fb.instrs[pc]? = some w)
    (hop : w.op = some op) (hne : op ≠ .wide) :
    checkFrom fb (fuel + 1) pc pending envs =
      checkNarrow fb pc op w pending envs >>= checkFrom fb fuel (pc + 1) none := by
  conv_lhs => unfold checkFrom
  simp only [hget, hop]
  cases checkNarrow fb pc op w pending envs <;> rfl

theorem checkFrom_eq_narrow {op : Opcode} {w : Instr} (hget : fb.instrs[pc]? = some w)
    (hop : w.op = some op) (hne : op ≠ .wide) :
    checkFrom fb (fuel + 1) pc pending envs =
      match checkNarrow fb pc op w pending envs with
      | .error e => .error e
      | .ok envs' => checkFrom fb fuel (pc + 1) none envs' := by
  rw [checkFrom_eq_bind hget hop hne]
  cases checkNarrow fb pc op w pending envs <;> rfl

theorem checkFrom_narrow {op : Opcode} {w : Instr} (hget : fb.instrs[pc]? = some w)
    (hop : w.op = some op) (hne : op ≠ .wide) :
    checkFrom fb (fuel + 1) pc pending envs = .ok () ↔
      ∃ envs', checkNarrow fb pc op w pending envs = .ok envs' ∧
        checkFrom fb fuel (pc + 1) none envs' = .ok () := by
  rw [checkFrom_eq_narrow hget hop hne]
  cases checkNarrow fb pc op w pending envs with
  | error e => simp
  | ok envs' => simp

theorem checkFrom_prefixed {w : Instr} {width : Nat} {mask aHi bHi cHi : BitVec 8}
    (hget : fb.instrs[pc]? = some w)
    (hop : w.op = some .wide)
    (hdec : WideOp.tryDecode (fb.instrs.drop pc) = .ok (.regExt mask aHi bHi cHi, width)) :
    checkFrom fb (fuel + 1) pc pending envs = .ok () ↔
      pending = none ∧ checkFrom fb fuel (pc + width) (some ⟨mask, aHi, bHi, cHi⟩) envs = .ok () := by
  conv_lhs => unfold checkFrom
  simp only [hget, hop, hdec]
  cases pending with
  | none => simp
  | some p => simp

theorem checkFrom_wide {w : Instr} {width : Nat} {wide : WideOp} (hget : fb.instrs[pc]? = some w)
    (hop : w.op = some .wide) (hdec : WideOp.tryDecode (fb.instrs.drop pc) = .ok (wide, width))
    (hne : ∀ mask aHi bHi cHi, wide ≠ .regExt mask aHi bHi cHi) :
    checkFrom fb (fuel + 1) pc pending envs = .ok () ↔
      pending = none ∧ ∃ envs', checkWide fb pc wide envs = .ok envs' ∧
        checkFrom fb fuel (pc + width) none envs' = .ok () := by
  conv_lhs => unfold checkFrom
  simp only [hget, hop, hdec]
  cases pending with
  | some p => cases wide <;> simp
  | none =>
    cases wide with
    | regExt mask aHi bHi cHi => exact absurd rfl (hne mask aHi bHi cHi)
    | _ =>
      simp only [Option.isSome_none, Bool.false_eq_true, if_false, true_and]
      split
      case h_1 e he => simp [he]
      case h_2 envs' he => simp [he]

theorem checkFrom_end (hend : fb.instrs.length ≤ pc) :
    checkFrom fb fuel pc pending envs = .ok () ↔ pending = none := by
  have hnone : fb.instrs[pc]? = none := List.getElem?_eq_none hend
  have hcheck : checkFrom fb fuel pc pending envs = checkEnd fb pending := by
    cases fuel with
    | zero => rfl
    | succ fuel =>
      conv_lhs => unfold checkFrom
      simp only [hnone]
  rw [hcheck, checkEnd]
  cases pending <;> simp

end Walk

theorem envsAfter_deleted {op : Opcode} (h : op = .loadInt ∨ op = .add ∨ op = .sub ∨ op = .mul ∨
    op = .jump ∨ op = .jumpIfFalse ∨ op = .jumpIfTrue) (operands : Nat → BitVec 16)
    (envs : List Nat) : envsAfter op operands envs = envs := by
  rcases h with h | h | h | h | h | h | h <;> subst h <;> rfl

theorem checkNarrow_envs {op : Opcode} {ext : Option RegExtPrefix}
    (h : checkNarrow fb pc op w ext envs = .ok envs') :
    envs' = envsAfter op (mergeSlot ext w) envs := by
  obtain ⟨_, -, h⟩ := bind_ok h
  obtain ⟨_, -, h⟩ := bind_ok h
  obtain ⟨_, -, h⟩ := bind_ok h
  obtain ⟨_, -, h⟩ := bind_ok h
  obtain ⟨_, -, h⟩ := bind_ok h
  obtain ⟨_, -, h⟩ := bind_ok h
  exact (Except.ok.inj h).symm

theorem checkNarrow_literal (hframe : SameFrame fb fb') (pc' : Nat) {op : Opcode}
    (hop : op = .add ∨ op = .sub ∨ op = .mul) {envs₀ envs₁ : List Nat}
    (h : checkNarrow fb pc op w none envs₀ = .ok envs₁) (v : BitVec 8) (envs : List Nat) :
    checkNarrow fb' pc' .loadInt (Instr.new .loadInt w.a 0 v) none envs = .ok envs := by
  have hreg : (mergeSlot none w 0).toNat < fb.maxRegs.toNat := by
    refine checkRegisters_ok (checkNarrow_ok h).1 (by omega) ?_
    rcases hop with rfl | rfl | rfl <;> rfl
  have hregs : checkRegister (BitVec.ofNat 32 pc') .loadInt (Role.name .dst)
      (mergeSlot none (Instr.new .loadInt w.a 0 v) 0) fb'.maxRegs.toNat = .ok () := by
    rw [checkRegister, hframe.maxRegs, mergeSlot_zero (w := w) (Instr.a_new _ _ _ _), if_pos hreg]
  simp only [checkNarrow, checkRegisters]
  show (checkRegister _ _ (Role.name .dst) _ _ >>= _) >>= _ = _
  rw [hregs]
  rfl

theorem atHeader_succ (h : AtHeader instrs pc) (hget : instrs[pc]? = some w)
    (hop : w.op ≠ some .wide) :
    AtHeader instrs (pc + 1) := by
  have hnext := h.next (List.getElem?_eq_some_iff.mp hget).1
  rwa [widthAt_narrow hget hop] at hnext

theorem tryDecode_roundOf (hwithin : Within (Lands instrs) (IsPayload instrs) instrs)
    (hpayload : PayloadKept instrs) {width : Nat} (h : AtHeader instrs pc) {wide : WideOp}
    (hkeep : (keepOf instrs)[pc]? = some true)
    (hdec : WideOp.tryDecode (instrs.drop pc) = .ok (wide, width)) :
    WideOp.tryDecode ((roundOf instrs).drop (newIndex (keepOf instrs) pc)) = .ok (wide, width) ∧
      newIndex (keepOf instrs) (pc + width) = newIndex (keepOf instrs) pc + width := by
  obtain ⟨header, rest, hcons, hop, -⟩ := WideOp.tryDecode_ok hdec
  have hwidth : widthAt instrs pc = width := widthAt_wide hdec
  have hlen : pc + width ≤ instrs.length := by
    rw [hcons] at hdec
    obtain ⟨-, -, hle⟩ := WideOp.tryDecode_layout hdec
    rw [← hcons, List.length_drop] at hle
    have hpos := wordWidth_pos (instrs.drop pc)
    rw [← widthAt, hwidth] at hpos
    omega
  have hkept (i : Nat) (hi : i < width) : (keepOf instrs)[pc + i]? = some true :=
    (keepOf_payload h (by omega) (by omega)).trans hkeep
  have hindex (i : Nat) (hi : i ≤ width) :
      newIndex (keepOf instrs) (pc + i) = newIndex (keepOf instrs) pc + i := by
    induction i with
    | zero => rfl
    | succ i ih =>
      rw [← Nat.add_assoc, newIndex_kept (hkept i (by omega)), ih (by omega)]
      omega
  refine ⟨tryDecode_congr hdec fun i hi => ?_, hindex width (Nat.le_refl _)⟩
  rw [List.getElem?_drop, List.getElem?_drop, ← hindex i (by omega)]
  have hlt : pc + i < instrs.length := by omega
  have hword : instrs[pc + i]? = some instrs[pc + i] := List.getElem?_eq_getElem hlt
  by_cases hi0 : i = 0
  · -- the header does not read as a branch
    subst hi0
    have hheader : instrs[pc] = header := by
      have := congrArg (fun l => l[0]?) hcons
      simpa [List.getElem?_drop, List.getElem?_eq_getElem (show pc < instrs.length by omega)]
        using this
    have hplain : branchOf instrs[pc] = none := by
      rw [hheader, branchOf, hop]
      rfl
    have hsame : (foldedOf instrs)[pc]? = some instrs[pc] := by
      rcases foldedOf_cases instrs pc with hsame | ⟨_, hfold, -⟩
      · exact hsame.trans hword
      · have hfirst : (widths instrs)[pc]? = some 1 := hfold.first
        rw [widths_header h (by omega), hwidth, Option.some.injEq] at hfirst
        have hpos := WideOp.encode_length_pos wide
        rw [hcons] at hdec
        have := (WideOp.tryDecode_layout hdec).2.1
        omega
    obtain ⟨w', hw', hr⟩ := roundOf_kept hwithin (hkept 0 hi) ((atHeader_iff hlt).mp h) hsame
    rcases hr with ⟨-, rfl⟩ | ⟨hop', -, t, ht, -⟩
    · exact hw'.trans hword.symm
    · have hsome := branchOf_isSome_of_op hop'
      rw [ht, hplain] at hsome
      cases hsome
  · rw [hword]
    exact hpayload _ _ (widths_payload h (by omega) (by omega) hlt) (hkept i hi) hword

/-- What the walk accepts from a header with at most `fuel` words left, the walk
over the new stream accepts from its new index. -/
def WalkCarried (fb fb' : FunctionBytecode) (fuel : Nat) : Prop :=
  ∀ (pc : Nat) (pending : Option RegExtPrefix) (envs : List Nat),
    AtHeader fb.instrs pc → pc ≤ fb.instrs.length → fb.instrs.length ≤ pc + fuel →
    (pending.isSome → (keepOf fb.instrs)[pc]? ≠ some false ∧
      (foldedOf fb.instrs)[pc]? = fb.instrs[pc]?) →
    checkFrom fb fuel pc pending envs = .ok () →
    ∀ fuel', fb'.instrs.length ≤ newIndex (keepOf fb.instrs) pc + fuel' →
      checkFrom fb' fuel' (newIndex (keepOf fb.instrs) pc) pending envs = .ok ()

section Carried

variable {fb fb' : FunctionBytecode} {fuel pc : Nat} {pending : Option RegExtPrefix}
  {envs : List Nat} {w : Instr}

theorem walk_deleted (hrest : WalkCarried fb fb' fuel) (hheader : AtHeader fb.instrs pc)
    (hget : fb.instrs[pc]? = some w) (hfuel : fb.instrs.length ≤ pc + (fuel + 1))
    (hdel : (keepOf fb.instrs)[pc]? = some false)
    (h : checkFrom fb (fuel + 1) pc none envs = .ok ()) {fuel' : Nat}
    (hfuel' : fb'.instrs.length ≤ newIndex (keepOf fb.instrs) pc + fuel') :
    checkFrom fb' fuel' (newIndex (keepOf fb.instrs) pc) none envs = .ok () := by
  obtain ⟨hlt, -⟩ := List.getElem?_eq_some_iff.mp hget
  -- what is deleted is narrow and allocates nothing
  obtain ⟨op, hop, hdeleted⟩ : ∃ op, w.op = some op ∧ (op = .loadInt ∨ op = .add ∨
      op = .sub ∨ op = .mul ∨ op = .jump ∨ op = .jumpIfFalse ∨ op = .jumpIfTrue) := by
    rcases deleted_cases hheader hdel with ⟨j, word, hfold, hpc, -⟩ | ⟨-, w', hw', hskip⟩
    · obtain ⟨w1, w2, w3, -, hw2, hw3, htriple⟩ := hfold.words
      obtain ⟨-, hop2, hop3, -⟩ := foldTriple_ops htriple
      rcases hpc with rfl | rfl
      · rw [hget, Option.some.injEq] at hw2
        exact ⟨_, hw2 ▸ hop2, Or.inl rfl⟩
      · rw [hget, Option.some.injEq] at hw3
        rcases hop3 with hop3 | hop3 | hop3 <;> exact ⟨_, hw3 ▸ hop3, by simp⟩
    · rw [hget, Option.some.injEq] at hw'
      rcases hskip with hskip | hskip | hskip <;> exact ⟨_, hw' ▸ hskip, by simp⟩
  have hne : op ≠ .wide := by
    rintro rfl
    simp at hdeleted
  obtain ⟨envs', hcheck, h⟩ := (checkFrom_narrow hget hop hne).mp h
  rw [checkNarrow_envs hcheck, envsAfter_deleted hdeleted] at h
  have hnext := atHeader_succ hheader hget (by rw [hop]; simpa using hne)
  rw [← newIndex_deleted (by rw [hdel]; simp : (keepOf fb.instrs)[pc]? ≠ some true)] at hfuel' ⊢
  exact hrest (pc + 1) none envs hnext hlt (by omega) (by simp) h fuel' hfuel'

theorem walk_kept (hframe : SameFrame fb fb') (hlen : fb'.instrs.length = keptCount fb.instrs)
    (hsize : fb'.instrs.length < 2 ^ 32) (hwithin : Within (Lands fb.instrs) (IsPayload fb.instrs) fb.instrs)
    (hpayload : PayloadKept fb.instrs) (hprefixes : PrefixesHold fb.instrs)
    (hrest : WalkCarried fb fb' fuel) (hheader : AtHeader fb.instrs pc)
    (hget : fb.instrs[pc]? = some w) (hfuel : fb.instrs.length ≤ pc + (fuel + 1))
    (hkeep : (keepOf fb.instrs)[pc]? = some true) (hsame : (foldedOf fb.instrs)[pc]? = some w)
    (h : checkFrom fb (fuel + 1) pc pending envs = .ok ()) {fuel' : Nat}
    (hfuel' : fb'.instrs.length ≤ newIndex (keepOf fb.instrs) pc + (fuel' + 1)) :
    checkFrom fb' (fuel' + 1) (newIndex (keepOf fb.instrs) pc) pending envs = .ok () := by
  obtain ⟨hlt, -⟩ := List.getElem?_eq_some_iff.mp hget
  obtain ⟨w', hw', hr⟩ := roundOf_kept hwithin hkeep ((atHeader_iff hlt).mp hheader) hsame
  rw [← hframe.instrs] at hw'
  rw [← hlen] at hr
  cases hop : w.op with
  | none =>
    unfold checkFrom at h
    simp [hget, hop] at h
  | some op =>
    have hop' : w'.op = some op := hr.op.trans hop
    by_cases hwide : op = .wide
    · subst hwide
      cases hdec : WideOp.tryDecode (fb.instrs.drop pc) with
      | error e =>
        unfold checkFrom at h
        simp [hget, hop, hdec] at h
      | ok r =>
        obtain ⟨wide, width⟩ := r
        obtain ⟨hdec', hindex⟩ := tryDecode_roundOf hwithin hpayload hheader hkeep hdec
        rw [← hframe.instrs] at hdec'
        have hwidth : widthAt fb.instrs pc = width := widthAt_wide hdec
        have hpos := wordWidth_pos (fb.instrs.drop pc)
        rw [← widthAt, hwidth] at hpos
        have hnext := hheader.next hlt
        rw [hwidth] at hnext
        have hend : pc + width ≤ fb.instrs.length := by
          obtain ⟨header, rest, hcons, -, -⟩ := WideOp.tryDecode_ok hdec
          rw [hcons] at hdec
          have hle := (WideOp.tryDecode_layout hdec).2.2
          rw [← hcons, List.length_drop] at hle
          omega
        by_cases hext : ∃ mask aHi bHi cHi, wide = .regExt mask aHi bHi cHi
        · obtain ⟨mask, aHi, bHi, cHi, rfl⟩ := hext
          obtain ⟨hnone, h⟩ := (checkFrom_prefixed hget hop hdec).mp h
          refine (checkFrom_prefixed hw' hop' hdec').mpr ⟨hnone, ?_⟩
          rw [← hindex]
          exact hrest _ _ envs hnext hend (by omega)
            (fun _ => hprefixes pc width mask aHi bHi cHi hheader hdec) h fuel' (by omega)
        · have hne : ∀ mask aHi bHi cHi, wide ≠ .regExt mask aHi bHi cHi :=
            fun mask aHi bHi cHi heq => hext ⟨mask, aHi, bHi, cHi, heq⟩
          obtain ⟨hnone, envs', hcheck, h⟩ := (checkFrom_wide hget hop hdec hne).mp h
          refine (checkFrom_wide hw' hop' hdec' hne).mpr
            ⟨hnone, envs', checkWide_carried hframe _ hcheck, ?_⟩
          rw [← hindex]
          exact hrest _ none envs' hnext hend (by omega) (by simp) h fuel' (by omega)
    · obtain ⟨envs', hcheck, h⟩ := (checkFrom_narrow hget hop hwide).mp h
      refine (checkFrom_narrow hw' hop' hwide).mpr
        ⟨envs', checkNarrow_carried hframe hsize _ hop hr hcheck, ?_⟩
      rw [← newIndex_kept hkeep]
      exact hrest (pc + 1) none envs'
        (atHeader_succ hheader hget (by rw [hop]; simpa using hwide)) hlt (by omega)
        (by simp) h fuel' (by rw [newIndex_kept hkeep]; omega)

theorem walk_folded (hframe : SameFrame fb fb') (hlen : fb'.instrs.length = keptCount fb.instrs)
    (hwithin : Within (Lands fb.instrs) (IsPayload fb.instrs) fb.instrs)
    (hrest : ∀ m < fuel + 1, WalkCarried fb fb' m) (hheader : AtHeader fb.instrs pc)
    (hfuel : fb.instrs.length ≤ pc + (fuel + 1)) {word : Instr}
    (hfold : Folded fb.instrs pc word) (hword : (foldedOf fb.instrs)[pc]? = some word)
    (hkeep : (keepOf fb.instrs)[pc]? = some true)
    (hdel2 : (keepOf fb.instrs)[pc + 1]? = some false)
    (hdel3 : (keepOf fb.instrs)[pc + 2]? = some false)
    (h : checkFrom fb (fuel + 1) pc none envs = .ok ()) {fuel' : Nat}
    (hfuel' : fb'.instrs.length ≤ newIndex (keepOf fb.instrs) pc + (fuel' + 1)) :
    checkFrom fb' (fuel' + 1) (newIndex (keepOf fb.instrs) pc) none envs = .ok () := by
  obtain ⟨w1, w2, w3, hw1, hw2, hw3, htriple⟩ := hfold.words
  obtain ⟨hop1, hop2, hop3, v, rfl⟩ := foldTriple_ops htriple
  obtain ⟨op3, hop3, hop3'⟩ : ∃ op, w3.op = some op ∧ (op = .add ∨ op = .sub ∨ op = .mul) := by
    rcases hop3 with hop3 | hop3 | hop3 <;> exact ⟨_, hop3, by simp⟩
  have hne3 : op3 ≠ .wide := by
    rintro rfl
    simp at hop3'
  obtain ⟨hlt3, -⟩ := List.getElem?_eq_some_iff.mp hw3
  obtain ⟨fuel, rfl⟩ : ∃ k, fuel = k + 2 := ⟨fuel - 2, by omega⟩
  -- the three old steps
  obtain ⟨envs₁, hcheck1, h⟩ := (checkFrom_narrow hw1 hop1 (by simp)).mp h
  rw [checkNarrow_envs hcheck1, envsAfter_deleted (Or.inl rfl)] at h
  obtain ⟨envs₂, hcheck2, h⟩ := (checkFrom_narrow hw2 hop2 (by simp)).mp h
  rw [checkNarrow_envs hcheck2, envsAfter_deleted (Or.inl rfl)] at h
  obtain ⟨envs₃, hcheck3, h⟩ := (checkFrom_narrow hw3 hop3 hne3).mp h
  rw [checkNarrow_envs hcheck3, envsAfter_deleted (by rcases hop3' with h | h | h <;> simp [h])] at h
  have hnext : AtHeader fb.instrs (pc + 3) := by
    have h1 := atHeader_succ hheader hw1 (by rw [hop1]; simp)
    have h2 := atHeader_succ h1 hw2 (by rw [hop2]; simp)
    exact atHeader_succ h2 hw3 (by rw [hop3]; simpa using hne3)
  -- the one new step
  have hnotPayload := (atHeader_iff (List.getElem?_eq_some_iff.mp hw1).1).mp hheader
  obtain ⟨w', hw', hr⟩ := roundOf_kept hwithin hkeep hnotPayload hword
  rw [← hframe.instrs] at hw'
  have hliteral : w' = Instr.new .loadInt w3.a 0 v := by
    rcases hr with ⟨-, heq⟩ | ⟨hop, -, t, ht, -⟩
    · exact heq
    · have hsome := branchOf_isSome_of_op hop
      rw [ht, branchOf_folded hfold] at hsome
      cases hsome
  subst hliteral
  refine (checkFrom_narrow hw' (Instr.op_new _ _ _ _) (by simp)).mpr
    ⟨envs, checkNarrow_literal hframe _ hop3' hcheck3 v envs, ?_⟩
  have hindex : newIndex (keepOf fb.instrs) (pc + 3) = newIndex (keepOf fb.instrs) pc + 1 := by
    rw [newIndex_deleted (i := pc + 2) (by rw [hdel3]; simp),
      newIndex_deleted (i := pc + 1) (by rw [hdel2]; simp), newIndex_kept hkeep]
  rw [← hindex]
  exact hrest fuel (by omega) (pc + 3) none envs hnext hlt3 (by omega) (by simp) h fuel' (by omega)

end Carried

/-- **The walk over the new stream** accepts from a header's new index what the
walk over the old one accepts from the header. -/
theorem walkCarried (hframe : SameFrame fb fb') (hsize : fb.instrs.length < 2 ^ 32)
    (hwithin : Within (Lands fb.instrs) (IsPayload fb.instrs) fb.instrs) (hpayload : PayloadKept fb.instrs)
    (hprefixes : PrefixesHold fb.instrs) (fuel : Nat) :
    WalkCarried fb fb' fuel := by
  have hlen : fb'.instrs.length = keptCount fb.instrs := by
    rw [hframe.instrs, length_roundOf]
  have hsize' : fb'.instrs.length < 2 ^ 32 := by
    have := newIndex_le (keepOf fb.instrs) fb.instrs.length
    rw [hlen, keptCount]
    omega
  induction fuel using Nat.strong_induction_on with
  | _ fuel ih =>
    intro pc pending envs hheader hle hfuel hpending h fuel' hfuel'
    rcases Nat.lt_or_ge pc fb.instrs.length with hlt | hge
    case inr =>
      rw [checkFrom_end hge] at h
      have hend : fb'.instrs.length ≤ newIndex (keepOf fb.instrs) pc := by
        rw [hlen]
        exact newIndex_mono _ hge
      exact (checkFrom_end hend).mpr h
    case inl =>
      obtain ⟨w, hget⟩ : ∃ w, fb.instrs[pc]? = some w := ⟨_, List.getElem?_eq_getElem hlt⟩
      obtain ⟨fuel, rfl⟩ : ∃ k, fuel = k + 1 := ⟨fuel - 1, by omega⟩
      obtain ⟨k, hk⟩ : ∃ k, (keepOf fb.instrs)[pc]? = some k :=
        ⟨_, List.getElem?_eq_getElem (by simpa using hlt)⟩
      cases k with
      | false =>
        have hnone : pending = none := by
          cases pending with
          | none => rfl
          | some p => exact absurd hk (hpending rfl).1
        subst hnone
        exact walk_deleted (ih fuel (by omega)) hheader hget hfuel hk h hfuel'
      | true =>
        have hlt' : newIndex (keepOf fb.instrs) pc < fb'.instrs.length := by
          rw [hlen]
          exact (newIndex_lt_iff hk _).mpr hlt
        obtain ⟨fuel', rfl⟩ : ∃ k, fuel' = k + 1 := ⟨fuel' - 1, by omega⟩
        by_cases hsame : (foldedOf fb.instrs)[pc]? = fb.instrs[pc]?
        · exact walk_kept hframe hlen hsize' hwithin hpayload hprefixes (ih fuel (by omega)) hheader
            hget hfuel hk (hsame.trans hget) h hfuel'
        · have hnone : pending = none := by
            cases pending with
            | none => rfl
            | some p => exact absurd (hpending rfl).2 hsame
          subst hnone
          rcases foldedOf_cases fb.instrs pc with heq | ⟨word, hfold, hword, -, hdel2, hdel3⟩
          · exact absurd heq hsame
          · exact walk_folded hframe hlen hwithin ih hheader hfuel hfold hword hk hdel2 hdel3 h
              hfuel'

/-! ## §9 What the walk accepted -/

theorem checkFrom_visits {op : Opcode} (hget : fb.instrs[i]? = some w) (hop : w.op = some op)
    (hne : op ≠ .wide) (hi : AtHeader fb.instrs i) :
    ∀ (fuel pc : Nat) (pending : Option RegExtPrefix)
      (envs : List Nat), AtHeader fb.instrs pc → pc ≤ i → fb.instrs.length ≤ pc + fuel →
      checkFrom fb fuel pc pending envs = .ok () →
      ∃ pending envs envs', checkNarrow fb i op w pending envs = .ok envs' := by
  obtain ⟨hlt, -⟩ := List.getElem?_eq_some_iff.mp hget
  intro fuel
  induction fuel with
  | zero => intro pc pending envs _ hle hfuel; omega
  | succ fuel ih =>
    intro pc pending envs hheader hle hfuel h
    by_cases heq : pc = i
    · subst heq
      obtain ⟨envs', hcheck, -⟩ := (checkFrom_narrow hget hop hne).mp h
      exact ⟨pending, envs, envs', hcheck⟩
    · have hlt' : pc < fb.instrs.length := by omega
      have hpos := wordWidth_pos (fb.instrs.drop pc)
      rw [← widthAt] at hpos
      have hnext := hheader.next hlt'
      -- `i` is no payload word of the header at `pc`
      have hpast : pc + widthAt fb.instrs pc ≤ i := by
        by_contra hin
        obtain ⟨k, rfl⟩ := Nat.exists_eq_add_of_le hle
        exact (atHeader_iff hlt).mp hi (widths_payload hheader (by omega) (by omega) hlt)
      obtain ⟨w₀, hget₀⟩ : ∃ w₀, fb.instrs[pc]? = some w₀ := ⟨_, List.getElem?_eq_getElem hlt'⟩
      cases hop₀ : w₀.op with
      | none =>
        unfold checkFrom at h
        simp [hget₀, hop₀] at h
      | some op₀ =>
        by_cases hwide : op₀ = .wide
        · subst hwide
          cases hdec : WideOp.tryDecode (fb.instrs.drop pc) with
          | error e =>
            unfold checkFrom at h
            simp [hget₀, hop₀, hdec] at h
          | ok r =>
            obtain ⟨wide, width⟩ := r
            have hwidth : widthAt fb.instrs pc = width := widthAt_wide hdec
            rw [hwidth] at hnext hpast hpos
            by_cases hext : ∃ mask aHi bHi cHi, wide = .regExt mask aHi bHi cHi
            · obtain ⟨mask, aHi, bHi, cHi, rfl⟩ := hext
              obtain ⟨-, h⟩ := (checkFrom_prefixed hget₀ hop₀ hdec).mp h
              exact ih _ _ _ hnext hpast (by omega) h
            · obtain ⟨-, envs', -, h⟩ := (checkFrom_wide hget₀ hop₀ hdec
                (fun mask aHi bHi cHi heq => hext ⟨mask, aHi, bHi, cHi, heq⟩)).mp h
              exact ih _ _ _ hnext hpast (by omega) h
        · obtain ⟨envs', -, h⟩ := (checkFrom_narrow hget₀ hop₀ hwide).mp h
          have hone : widthAt fb.instrs pc = 1 :=
            widthAt_narrow hget₀ (by rw [hop₀]; simpa using hwide)
          rw [hone] at hnext hpast
          exact ih _ _ _ hnext hpast (by omega) h

theorem within_of_checked (htargets : TargetsClear fb.instrs) (h : checkOperandContract fb = .ok ()) :
    Within (Lands fb.instrs) (IsPayload fb.instrs) fb.instrs := by
  intro i w hnotPayload hget t ht
  obtain ⟨hlt, -⟩ := List.getElem?_eq_some_iff.mp hget
  have hheader : AtHeader fb.instrs i := (atHeader_iff hlt).mpr hnotPayload
  refine ⟨?_, htargets i w t hnotPayload hget ht⟩
  obtain ⟨op, hop, htarget⟩ := Option.bind_eq_some_iff.mp ht
  have hne : op ≠ .wide := by
    rintro rfl
    cases htarget
  obtain ⟨pending, envs, envs', hcheck⟩ := checkFrom_visits hget hop hne hheader _ 0 none []
    (atHeader_zero _) (Nat.zero_le i) (by omega) h
  have hbranch := (checkNarrow_ok hcheck).2.2
  unfold checkBranch at hbranch
  rw [htarget] at hbranch
  simp only at hbranch
  split at hbranch
  · cases hbranch
  · have := Nat.mod_le fb.instrs.length (2 ^ 32)
    omega

/-- **One round keeps the operand contract.** -/
theorem checkOperandContract_round (hframe : SameFrame fb fb') (hsize : fb.instrs.length < 2 ^ 32)
    (hpayload : PayloadKept fb.instrs) (htargets : TargetsClear fb.instrs)
    (hprefixes : PrefixesHold fb.instrs) (h : checkOperandContract fb = .ok ()) :
    checkOperandContract fb' = .ok () := by
  have hwalk := walkCarried hframe hsize (within_of_checked htargets h) hpayload hprefixes
    fb.instrs.length 0 none [] (atHeader_zero _) (Nat.zero_le _) (by omega) (by simp) h
    fb'.instrs.length
  rw [newIndex_zero] at hwalk
  exact hwalk (by omega)

end V12.Bccompiler
