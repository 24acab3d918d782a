/-
V12.Bccompiler.JumpPlaces — where branches go after the peephole pass.

`SamePlace` says that the jumps of a stream lead from two pcs to one: a round
takes pcs of one place to pcs of one place, and the target of a kept branch to
the place of its old target, as long as threading does not cut a conditional
target to 16 bits (`ThreadingFits`).
-/
import V12.Bccompiler.Survivors
import V12.Bccompiler.Deletable
import V12.Bccompiler.Round
import Mathlib.Logic.Relation

namespace V12.Bccompiler

open V12.Bytecode Relation

variable {instrs old new : List Instr} {p q i : Nat} {f : Nat → Nat}

/-! ## §1 Places -/

/-- The jump at `p` leads to `q`; behind the last word there is only the end. -/
def Hop (instrs : List Instr) (p q : Nat) : Prop :=
  ∃ w, instrs[p]? = some w ∧ w.op = some .jump ∧ q = min w.imm24.toNat instrs.length

def SamePlace (instrs : List Instr) : Nat → Nat → Prop := Join (ReflTransGen (Hop instrs))

theorem samePlace_equivalence (instrs : List Instr) : Equivalence (SamePlace instrs) :=
  equivalence_join_reflTransGen fun p q r hq hr => by
    obtain ⟨w, hw, -, rfl⟩ := hq
    obtain ⟨w', hw', -, rfl⟩ := hr
    rw [hw, Option.some.injEq] at hw'
    subst hw'
    exact ⟨_, .refl, .refl⟩

theorem SamePlace.refl (instrs : List Instr) (p : Nat) : SamePlace instrs p p :=
  (samePlace_equivalence instrs).refl p

theorem SamePlace.symm (h : SamePlace instrs p q) :
    SamePlace instrs q p := (samePlace_equivalence instrs).symm h

theorem SamePlace.trans {r : Nat} (h : SamePlace instrs p q) (h' : SamePlace instrs q r) :
    SamePlace instrs p r := (samePlace_equivalence instrs).trans h h'

theorem samePlace_of_hops (h : ReflTransGen (Hop instrs) p q) :
    SamePlace instrs p q := ⟨q, h, .refl⟩

theorem SamePlace.map (hhop : ∀ p q, Hop old p q → SamePlace new (f p) (f q))
    (h : SamePlace old p q) :
    SamePlace new (f p) (f q) := by
  have hops {p r : Nat} (h : ReflTransGen (Hop old) p r) : SamePlace new (f p) (f r) := by
    induction h with
    | refl => exact .refl new _
    | tail _ hlast ih => exact ih.trans (hhop _ _ hlast)
  obtain ⟨r, hp, hq⟩ := h
  exact (hops hp).trans (hops hq).symm

/-! ## §2 Carried targets -/

/-- The branch at `i` of the old stream is the branch at `j` of the new one, and
goes to the place that `f` gives its old target. -/
def Carried (old new : List Instr) (f : Nat → Nat) (i j : Nat) : Prop :=
  ∀ w t, old[i]? = some w → branchOf w = some t →
    ∃ w' t', new[j]? = some w' ∧ w'.op = w.op ∧ branchOf w' = some t' ∧
      SamePlace new (f (min t old.length)) (min t' new.length)

def PlacesKept (old new : List Instr) (f : Nat → Nat) : Prop :=
  ∀ p q, SamePlace old p q → SamePlace new (f p) (f q)

theorem Carried.trans {a b c : List Instr} {g : Nat → Nat} {j k : Nat} (h : Carried a b f i j)
    (h' : Carried b c g j k) (hplaces : PlacesKept b c g) :
    Carried a c (g ∘ f) i k := by
  intro w t hw ht
  obtain ⟨w', t', hw', hop', ht', hsame⟩ := h w t hw ht
  obtain ⟨w'', t'', hw'', hop'', ht'', hsame'⟩ := h' w' t' hw' ht'
  exact ⟨w'', t'', hw'', hop''.trans hop', ht'', (hplaces _ _ hsame).trans hsame'⟩

theorem Carried.hop (h : Carried old new f p (f p)) (hhop : Hop old p q) :
    SamePlace new (f p) (f q) := by
  obtain ⟨w, hw, hop, rfl⟩ := hhop
  obtain ⟨w', t', hw', hop', ht', hsame⟩ := h w _ hw (branchOf_jump hop)
  rw [branchOf_jump (hop'.trans hop), Option.some.injEq] at ht'
  subst ht'
  exact (samePlace_of_hops (.single ⟨w', hw', hop'.trans hop, rfl⟩)).trans hsame.symm

theorem placesKept_of_carried (h : ∀ k, Carried old new id k k) :
    PlacesKept old new id := fun _ _ hsame => hsame.map fun p _ hhop => (h p).hop hhop

theorem Carried.refl (instrs : List Instr) (k : Nat) : Carried instrs instrs id k k :=
  fun w t hw ht => ⟨w, t, hw, rfl, ht, .refl _ _⟩

/-! ## §3 One turn of threading -/

def IsConditional (w : Instr) : Prop :=
  w.op = some .jumpIfFalse ∨ w.op = some .jumpIfTrue ∨ w.op = some .jumpIfNullish

instance (w : Instr) : Decidable (IsConditional w) := inferInstanceAs (Decidable (_ ∨ _))

/-- The turn at `i` does not cut a conditional target to size. -/
def TurnFits (instrs : List Instr) (i : Nat) : Prop :=
  ∀ w ∈ instrs[i]?, IsConditional w → chase instrs none 16 w.imm16.toNat < 2 ^ 16

theorem threadedWord_cases {w' : Instr} (h : threadedWord instrs i = some w') :
    ∃ w, instrs[i]? = some w ∧
      ((w.op = some .jump ∧
          w' = w.setImm24 (BitVec.ofNat 32 (chase instrs (some i) 16 w.imm24.toNat))) ∨
        (IsConditional w ∧
          w' = w.setImm16 (BitVec.ofNat 16 (chase instrs none 16 w.imm16.toNat)))) := by
  unfold threadedWord at h
  split at h
  case h_1 => cases h
  case h_2 w hw =>
    refine ⟨w, hw, ?_⟩
    split at h
    case h_5 => cases h
    all_goals
      rename_i hop
      split at h
      case isFalse => cases h
      case isTrue =>
        cases h
        simp [IsConditional, hop]

theorem chase_hops {stop : Option Nat}
    (hi : ∀ w, instrs[i]? = some w → w.op = some .jump → stop = some i) (hops t : Nat) :
    ReflTransGen (fun p q => Hop instrs p q ∧ p ≠ i) (min t instrs.length)
      (min (chase instrs stop hops t) instrs.length) := by
  induction hops generalizing t with
  | zero => exact .refl
  | succ hops ih =>
    unfold chase
    split
    case isTrue => exact .refl
    case isFalse hstop =>
      split
      case h_2 => exact .refl
      case h_1 word hword =>
        split
        case isFalse => exact .refl
        case isTrue hop =>
          have hlt := (List.getElem?_eq_some_iff.mp hword).1
          refine .head ⟨⟨word, ?_, hop, rfl⟩, ?_⟩ (ih _)
          · rw [Nat.min_eq_left (by omega), hword]
          · rw [Nat.min_eq_left (by omega)]
            rintro rfl
            exact hstop (hi word hword hop)

theorem carried_threadAt (hfits : TurnFits instrs i) (k : Nat) :
    Carried instrs (threadAt instrs i) id k k := by
  unfold threadAt
  cases hword : threadedWord instrs i with
  | none => exact .refl instrs k
  | some w' =>
    by_cases hk : i = k
    · subst hk
      intro w t hw ht
      obtain ⟨w₀, hw₀, hcase⟩ := threadedWord_cases hword
      rw [hw, Option.some.injEq] at hw₀
      subst hw₀
      have hget : (instrs.set i w')[i]? = some w' :=
        List.getElem?_set_self (List.getElem?_eq_some_iff.mp hw).1
      have hother {p q : Nat} (h : Hop instrs p q ∧ p ≠ i) : Hop (instrs.set i w') p q := by
        obtain ⟨⟨v, hv, hop, hq⟩, hne⟩ := h
        exact ⟨v, by rw [List.getElem?_set_ne (Ne.symm hne), hv], hop, by simpa using hq⟩
      -- the hops from the old target to the new one are those of the new stream
      have hmove {stop : Option Nat}
          (hi : ∀ v, instrs[i]? = some v → v.op = some .jump → stop = some i) :
          SamePlace (instrs.set i w') (min t instrs.length)
            (min (chase instrs stop 16 t) (instrs.set i w').length) := by
        rw [List.length_set]
        exact samePlace_of_hops (ReflTransGen.mono (fun _ _ h => hother h) _ _ (chase_hops hi 16 t))
      rcases hcase with ⟨hop, rfl⟩ | ⟨hcond, rfl⟩
      · rw [branchOf_jump hop, Option.some.injEq] at ht
        subst ht
        refine ⟨_, _, hget, Instr.op_setImm24 _ _, ?_, hmove fun _ _ _ => rfl⟩
        rw [branchOf_jump (by simpa using hop), Instr.imm24_setImm24,
          imm24_mask (chase_lt _ _ _ (Instr.imm24_toNat_lt w))]
      · rw [branchOf_conditional hcond, Option.some.injEq] at ht
        subst ht
        have hstop (v : Instr) (hv : instrs[i]? = some v) (hop : v.op = some .jump) :
            none = some i := by
          rw [hw, Option.some.injEq] at hv
          subst hv
          rcases hcond with h | h | h <;> rw [hop] at h <;> cases h
        refine ⟨_, _, hget, Instr.op_setImm16 _ _, ?_, hmove hstop⟩
        rw [branchOf_conditional (by simpa [IsConditional] using hcond), Instr.imm16_setImm16,
          BitVec.toNat_ofNat, Nat.mod_eq_of_lt (hfits w hw hcond)]
    · intro w t hw ht
      refine ⟨w, t, by rw [List.getElem?_set_ne hk, hw], rfl, ht, ?_⟩
      rw [List.length_set]
      exact .refl _ _

/-! ## §4 A round -/

/-- No turn of the threading loop cuts a conditional target to size. -/
def ThreadingFits (instrs : List Instr) : Prop :=
  ∀ i < instrs.length, TurnFits ((List.range i).foldl threadAt instrs) i

theorem carried_thread (hfits : ThreadingFits instrs) (k : Nat) :
    Carried instrs (thread instrs) id k k := by
  have hturns (n : Nat) (hn : n ≤ instrs.length) (k : Nat) :
      Carried instrs ((List.range n).foldl threadAt instrs) id k k := by
    induction n generalizing k with
    | zero => exact .refl instrs k
    | succ n ih =>
      have hturn := carried_threadAt (hfits n hn)
      rw [List.range_succ, List.foldl_append]
      exact (ih (by omega) k).trans (hturn k) (placesKept_of_carried hturn)
  exact hturns _ (Nat.le_refl _) k

theorem hop_of_deleted (hhop : Hop instrs p q) (hdel : Deletable instrs p) : q = p + 1 := by
  obtain ⟨w, hw, hop, rfl⟩ := hhop
  obtain ⟨hlt, hheader, -⟩ := hdel.header
  have htarget : w.imm24.toNat = nextHeader (widths instrs) p := by
    rcases hdel with hdead | ⟨j, ⟨-, word, hfold⟩, hj⟩
    · simp only [deadBranch, hw, hop, Bool.and_eq_true, beq_iff_eq] at hdead
      exact hdead.2
    · -- no word of a triple is a jump
      exfalso
      obtain ⟨w1, w2, w3, -, h2, h3, htriple⟩ := hfold.words
      obtain ⟨-, hop2, hop3, -⟩ := foldTriple_ops htriple
      rcases hj with rfl | rfl
      · rw [hw, Option.some.injEq] at h2
        rw [← h2, hop] at hop2
        cases hop2
      · rw [hw, Option.some.injEq] at h3
        rw [← h3, hop] at hop3
        rcases hop3 with h | h | h <;> cases h
  have hnext : nextHeader (widths instrs) p = p + 1 := by
    unfold nextHeader
    rw [length_widths]
    by_cases hlast : p + 1 < instrs.length
    · have hwidth : (widths instrs)[p + 1]? ≠ some 0 := by
        have hhead := hheader.next hlt
        rw [widthAt_narrow hw (by simp [hop])] at hhead
        exact (atHeader_iff hlast).mp hhead
      obtain ⟨n, hn⟩ := Nat.exists_eq_succ_of_ne_zero
        (show instrs.length - (p + 1) ≠ 0 by omega)
      rw [hn, List.range'_succ, List.find?_cons_of_pos (by simpa using hwidth)]
      rfl
    · rw [show instrs.length - (p + 1) = 0 by omega]
      simp
      omega
  rw [htarget, hnext]
  omega

theorem foldedOf_branch {k t : Nat} {w : Instr} (hw : instrs[k]? = some w)
    (ht : branchOf w = some t) : (foldedOf instrs)[k]? = some w := by
  rcases foldedOf_cases instrs k with hsame | ⟨word, hfold, -⟩
  · rw [hsame, hw]
  · obtain ⟨w1, -, -, h1, -, -, hop1, -⟩ := hfold.ops
    rw [hw, Option.some.injEq] at h1
    subst h1
    rw [branchOf, hop1] at ht
    cases ht

theorem carried_compactedOf (hkeep : (keepOf instrs)[i]? = some true) :
    Carried instrs (compactedOf instrs) (newIndex (keepOf instrs)) i
      (newIndex (keepOf instrs) i) := by
  intro w t hw ht
  rw [length_compactedOf]
  have hlen := length_keepOf instrs
  unfold compactedOf
  split
  case isTrue =>
    refine ⟨remap (keepOf instrs) w, _, ?_, op_remap _ _,
      by rw [branchOf_remap, ht]; rfl, ?_⟩
    · rw [List.getElem?_map, getElem?_compact hkeep, foldedOf_branch hw ht, Option.map_some]
    · have hle := newIndex_le_length (keepOf instrs) (min t (keepOf instrs).length)
      rw [newIndex_keepOf_length] at hle
      rw [Nat.min_eq_left hle, hlen]
      exact .refl _ _
  case isFalse hnone =>
    have hlt := (List.getElem?_eq_some_iff.mp hw).1
    refine ⟨w, t, ?_, rfl, ht, ?_⟩
    · rw [newIndex_of_all_kept hnone (by omega), hw]
    · rw [newIndex_of_all_kept hnone (by omega), keptCount, newIndex_of_all_kept hnone (by omega)]
      exact .refl _ _

theorem placesKept_compactedOf (instrs : List Instr) :
    PlacesKept instrs (compactedOf instrs) (newIndex (keepOf instrs)) := by
  refine fun p q hsame => hsame.map fun p q hhop => ?_
  by_cases hdel : Deletable instrs p
  · rw [hop_of_deleted hhop hdel, newIndex_deleted (by simp [deletable_iff.mpr hdel])]
    exact .refl _ _
  · have hlt : p < instrs.length := by
      obtain ⟨w, hw, -⟩ := hhop
      exact (List.getElem?_eq_some_iff.mp hw).1
    exact (carried_compactedOf ((kept_iff hlt).mpr hdel)).hop hhop

/-! ## §5 The rounds -/

section Rounds

variable {σ : Type}
variable {c : Code σ} {i : Nat}

def RoundFits (c : Code σ) : Prop := ThreadingFits (compactedOf c.instrs)

theorem carried_round (hfits : RoundFits c) (hkeep : (keepOf c.instrs)[i]? = some true) :
    Carried c.instrs (round c).1.instrs (newIndex (keepOf c.instrs)) i
      (newIndex (keepOf c.instrs) i) := by
  rw [round_instrs]
  exact (carried_compactedOf hkeep).trans (carried_thread hfits _)
    (placesKept_of_carried (carried_thread hfits))

theorem placesKept_round (hfits : RoundFits c) :
    PlacesKept c.instrs (round c).1.instrs (newIndex (keepOf c.instrs)) := by
  intro p q hsame
  rw [round_instrs]
  exact placesKept_of_carried (carried_thread hfits) _ _ (placesKept_compactedOf _ _ _ hsame)

theorem placesKept_min (instrs : List Instr) :
    PlacesKept instrs instrs (rank (List.range instrs.length)) := by
  refine fun p q hsame => hsame.map fun p q hhop => ?_
  obtain ⟨w, hw, hop, rfl⟩ := hhop
  have hlt := (List.getElem?_eq_some_iff.mp hw).1
  rw [rank_range, rank_range, Nat.min_eq_left (by omega : p ≤ instrs.length),
    Nat.min_eq_left (by omega)]
  exact samePlace_of_hops (.single ⟨w, hw, hop, rfl⟩)

theorem carried_min {instrs : List Instr} {j : Nat} (h : (List.range instrs.length)[j]? = some i) :
    Carried instrs instrs (rank (List.range instrs.length)) i j := by
  obtain ⟨hlt, hget⟩ := List.getElem?_eq_some_iff.mp h
  have hij : j = i := by simpa using hget
  subst hij
  intro w t hw ht
  refine ⟨w, t, hw, rfl, ht, ?_⟩
  rw [rank_range, Nat.min_eq_left (by omega : min t instrs.length ≤ instrs.length)]
  exact .refl _ _

theorem rank_comp (rounds : Nat) (c : Code σ) :
    rank (survivorsFrom (roundsAfter rounds c) (round c).1) ∘ newIndex (keepOf c.instrs) =
      rank (survivorsFrom (rounds + 1) c) := by
  funext i
  rw [Function.comp, rank_succ]

/-- **Pcs of one place stay at one place** through the rounds. -/
theorem placesKept_rounds (rounds : Nat) (hfits : RoundsMeet RoundFits rounds c) :
    PlacesKept c.instrs (roundsFrom rounds c).instrs (rank (survivorsFrom rounds c)) := by
  induction rounds generalizing c with
  | zero => exact placesKept_min c.instrs
  | succ rounds ih =>
    have hround := placesKept_round hfits.1
    have hrest := hfits.rest
    rw [roundsFrom_succ, ← rank_comp]
    unfold roundsAfter at hrest ⊢
    split
    case isTrue hchanged =>
      rw [if_pos hchanged] at hrest
      exact fun p q hsame => ih hrest _ _ (hround p q hsame)
    case isFalse => exact fun p q hsame => placesKept_min _ _ _ (hround p q hsame)

/-- **A surviving branch goes to the place of its old target.** -/
theorem carried_rounds (rounds : Nat) (hfits : RoundsMeet RoundFits rounds c) {j : Nat}
    (hj : (survivorsFrom rounds c)[j]? = some i) :
    Carried c.instrs (roundsFrom rounds c).instrs (rank (survivorsFrom rounds c)) i j := by
  induction rounds generalizing c j i with
  | zero => exact carried_min hj
  | succ rounds ih =>
    obtain ⟨hkeep, hlater⟩ := survivorsFrom_succ_get hj
    have hround := carried_round hfits.1 hkeep
    have hrest := hfits.rest
    rw [roundsFrom_succ, ← rank_comp]
    unfold roundsAfter at hrest hlater ⊢
    split
    case isTrue hchanged =>
      rw [if_pos hchanged] at hrest hlater
      exact hround.trans (ih hrest hlater) (placesKept_rounds rounds hrest)
    case isFalse hsame =>
      rw [if_neg hsame] at hlater
      exact hround.trans (carried_min hlater) (placesKept_min _)

end Rounds

end V12.Bccompiler
