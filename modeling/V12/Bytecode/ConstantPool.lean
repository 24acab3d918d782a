/-
V12.Bytecode.ConstantPool — the interning pool of `v12-bytecode/src/lib.rs`.

The constants sit in a vector, and a hash map from keys to indices sits beside
it. `Consistent` ties the two together; every history of inserts keeps it, and
with it an index stands for its constant for good.
-/
import Mathlib.Data.List.Basic
import V12.Bytecode.Builder
import V12.Lib.Run

namespace V12.Bytecode

/-! ## §1 The pool -/

/-- `Const::key`: a tag and the payload's exact bits. -/
def Const.key : Const → BitVec 8 × BitVec 64
  | .f64 bits => (0, bits)
  | .str32 id => (1, id.zeroExtend 64)
  | .bigIntId id => (2, id.zeroExtend 64)
  | .bigU64 v => (3, v)
  | .null => (4, 0)

structure ConstantPool where
  consts : List Const
  index : List ((BitVec 8 × BitVec 64) × BitVec 16)

namespace ConstantPool

def new : ConstantPool := ⟨[], []⟩

/-- `insert`: the index, or `ConstantPoolFull`, with the pool it leaves. -/
def insert (p : ConstantPool) (constant : Const) : Option (BitVec 16) × ConstantPool :=
  match p.index.lookup constant.key with
  | some existing => (some existing, p)
  | none =>
    if maxConstants ≤ p.consts.length then (none, p)
    else
      let idx := BitVec.ofNat 16 p.consts.length
      (some idx, ⟨p.consts ++ [constant], (constant.key, idx) :: p.index⟩)

def get (p : ConstantPool) (idx : BitVec 16) : Option Const := p.consts[idx.toNat]?

def step (p : ConstantPool) (constant : Const) : ConstantPool := (p.insert constant).2

/-! ## §2 The invariant -/

theorem key_injective : Function.Injective Const.key := by
  have hwide {a b : BitVec 32} (h : a.zeroExtend 64 = b.zeroExtend 64) : a = b := by
    have hnat := congrArg BitVec.toNat h
    simp only [BitVec.toNat_setWidth] at hnat
    have ha := a.isLt
    have hb := b.isLt
    rw [Nat.mod_eq_of_lt (by omega), Nat.mod_eq_of_lt (by omega)] at hnat
    exact BitVec.eq_of_toNat_eq hnat
  intro a b hab
  cases a with
  | f64 bits =>
    cases b with
    | f64 bits' => rw [(Prod.mk.inj hab).2]
    | _ => cases hab
  | str32 id =>
    cases b with
    | str32 id' => rw [hwide (Prod.mk.inj hab).2]
    | _ => cases hab
  | bigIntId id =>
    cases b with
    | bigIntId id' => rw [hwide (Prod.mk.inj hab).2]
    | _ => cases hab
  | bigU64 v =>
    cases b with
    | bigU64 v' => rw [(Prod.mk.inj hab).2]
    | _ => cases hab
  | null =>
    cases b with
    | null => rfl
    | _ => cases hab

/-- The map holds exactly the keys of the vector, each with its place. -/
structure Consistent (p : ConstantPool) : Prop where
  indexed : ∀ i constant, p.consts[i]? = some constant →
    p.index.lookup constant.key = some (BitVec.ofNat 16 i)
  held : ∀ key idx, p.index.lookup key = some idx →
    ∃ constant, p.get idx = some constant ∧ constant.key = key
  bounded : p.consts.length ≤ maxConstants

variable {p : ConstantPool} {constant : Const}
variable {idx : BitVec 16} {c : Const}

theorem consistent_new : Consistent new :=
  ⟨(fun i constant h => by simp [new] at h), (fun key idx h => by cases h), by decide⟩

theorem insert_hit (h : p.index.lookup constant.key = some idx) :
    p.insert constant = (some idx, p) := by
  unfold insert
  rw [h]

theorem insert_full (h : p.index.lookup constant.key = none)
    (hfull : maxConstants ≤ p.consts.length) : p.insert constant = (none, p) := by
  unfold insert
  rw [h]
  exact if_pos hfull

theorem insert_miss (h : p.index.lookup constant.key = none)
    (hroom : p.consts.length < maxConstants) :
    p.insert constant = (some (BitVec.ofNat 16 p.consts.length),
      ⟨p.consts ++ [constant], (constant.key, BitVec.ofNat 16 p.consts.length) :: p.index⟩) := by
  unfold insert
  rw [h]
  exact if_neg (Nat.not_le_of_lt hroom)

theorem insert_cases (p : ConstantPool) (constant : Const) :
    (∃ idx, p.index.lookup constant.key = some idx ∧ p.insert constant = (some idx, p)) ∨
    (p.index.lookup constant.key = none ∧ maxConstants ≤ p.consts.length ∧
      p.insert constant = (none, p)) ∨
    (p.index.lookup constant.key = none ∧ p.consts.length < maxConstants ∧
      p.insert constant = (some (BitVec.ofNat 16 p.consts.length),
        ⟨p.consts ++ [constant],
          (constant.key, BitVec.ofNat 16 p.consts.length) :: p.index⟩)) := by
  cases h : p.index.lookup constant.key with
  | some idx => exact Or.inl ⟨idx, rfl, insert_hit h⟩
  | none =>
    by_cases hroom : p.consts.length < maxConstants
    · exact Or.inr (Or.inr ⟨rfl, hroom, insert_miss h hroom⟩)
    · exact Or.inr (Or.inl ⟨rfl, Nat.le_of_not_lt hroom, insert_full h (Nat.le_of_not_lt hroom)⟩)

theorem toNat_place (hroom : p.consts.length < maxConstants) :
    (BitVec.ofNat 16 p.consts.length).toNat = p.consts.length := by
  rw [BitVec.toNat_ofNat]
  exact Nat.mod_eq_of_lt (Nat.lt_trans hroom (by decide))

/-- The builder's `add_const` is `insert`, with the map read off the vector. -/
theorem addConst_eq_insert (hp : Consistent p) {b : FunctionBuilder} (hb : b.consts = p.consts) :
    b.addConst constant = (p.insert constant).1.map fun idx =>
      (idx, { b with consts := (p.insert constant).2.consts }) := by
  have hindexed (hmem : constant ∈ p.consts) :
      p.index.lookup constant.key = some (BitVec.ofNat 16 (p.consts.idxOf constant)) :=
    hp.indexed _ _ (List.getElem?_idxOf hmem)
  have habsent (hnew : p.index.lookup constant.key = none) : constant ∉ p.consts := by
    intro hmem
    rw [hindexed hmem] at hnew
    cases hnew
  unfold FunctionBuilder.addConst
  rcases insert_cases p constant with ⟨idx, hold, heq⟩ | ⟨hnew, hfull, heq⟩ | ⟨hnew, hroom, heq⟩
  · obtain ⟨c, hget, hkey⟩ := hp.held _ _ hold
    obtain rfl := key_injective hkey
    have hmem := List.mem_of_getElem? hget
    rw [hb, if_pos hmem, heq, Option.some.inj ((hindexed hmem).symm.trans hold), ← hb]
    rfl
  · rw [hb, if_neg (habsent hnew), if_pos hfull, heq]
    rfl
  · rw [hb, if_neg (habsent hnew), if_neg (Nat.not_le_of_lt hroom), heq]
    rfl

/-- **Step rule.** -/
theorem Consistent.step (hp : Consistent p) (constant : Const) :
    Consistent (p.step constant) := by
  unfold ConstantPool.step
  rcases insert_cases p constant with ⟨idx, -, heq⟩ | ⟨-, -, heq⟩ | ⟨hnew, hroom, heq⟩
  · rw [heq]
    exact hp
  · rw [heq]
    exact hp
  · rw [heq]
    refine ⟨fun i c hi => ?_, fun key idx hidx => ?_, ?_⟩
    · -- the constant appended, or one that has another key
      by_cases hlast : i < p.consts.length
      · rw [List.getElem?_append_left hlast] at hi
        have hold := hp.indexed i c hi
        have hne : (c.key == constant.key) = false := by
          refine beq_false_of_ne fun heq' => ?_
          rw [heq', hnew] at hold
          cases hold
        show List.lookup c.key (_ :: _) = _
        rw [List.lookup_cons, hne]
        exact hold
      · rw [List.getElem?_append_right (Nat.le_of_not_lt hlast)] at hi
        rw [List.getElem?_singleton] at hi
        split at hi
        case isTrue hzero =>
          obtain rfl := Option.some.inj hi
          obtain rfl : i = p.consts.length := by omega
          exact List.lookup_cons_self
        case isFalse => cases hi
    · change List.lookup key (_ :: _) = some idx at hidx
      rw [List.lookup_cons] at hidx
      split at hidx
      case h_1 hkey =>
        obtain rfl := Option.some.inj hidx
        refine ⟨constant, ?_, (eq_of_beq hkey).symm⟩
        show (p.consts ++ [constant])[(BitVec.ofNat 16 p.consts.length).toNat]? = some constant
        rw [toNat_place hroom, List.getElem?_concat_length]
      case h_2 =>
        obtain ⟨c, hget, hkey⟩ := hp.held key idx hidx
        have hlt : idx.toNat < p.consts.length := (List.getElem?_eq_some_iff.mp hget).1
        refine ⟨c, ?_, hkey⟩
        show (p.consts ++ [constant])[idx.toNat]? = some c
        rw [List.getElem?_append_left hlt]
        exact hget
    · show (p.consts ++ [constant]).length ≤ maxConstants
      rw [List.length_append]
      exact hroom

/-- **Run rule.** -/
theorem consistent_run (hp : Consistent p) (constants : List Const) :
    Consistent (Lib.run ConstantPool.step p constants) :=
  Lib.run_invariant (I := Consistent) (fun _ c hs _ => hs.step c) hp
    (Lib.stepsMeet_of_forall (C := fun _ _ => True) (fun _ _ => trivial) constants p)

/-! ## §3 Indices over time -/

theorem get_step (hget : p.get idx = some c) (constant : Const) :
    (p.step constant).get idx = some c := by
  unfold ConstantPool.step
  rcases insert_cases p constant with ⟨i, -, heq⟩ | ⟨-, -, heq⟩ | ⟨-, -, heq⟩
  · rw [heq]
    exact hget
  · rw [heq]
    exact hget
  · have hlt : idx.toNat < p.consts.length := (List.getElem?_eq_some_iff.mp hget).1
    rw [heq]
    show (p.consts ++ [constant])[idx.toNat]? = some c
    rw [List.getElem?_append_left hlt]
    exact hget

theorem get_run (hget : p.get idx = some c) (constants : List Const) :
    (Lib.run ConstantPool.step p constants).get idx = some c := by
  induction constants generalizing p with
  | nil => exact hget
  | cons constant rest ih => exact ih (get_step hget constant)

theorem get_insert (hp : Consistent p) (hret : (p.insert constant).1 = some idx) :
    (p.step constant).get idx = some constant := by
  unfold ConstantPool.step
  rcases insert_cases p constant with ⟨i, hlookup, heq⟩ | ⟨-, -, heq⟩ | ⟨-, hroom, heq⟩
  · rw [heq] at hret ⊢
    obtain rfl := Option.some.inj hret
    obtain ⟨c, hget, hkey⟩ := hp.held _ _ hlookup
    rw [← key_injective hkey]
    exact hget
  · rw [heq] at hret
    cases hret
  · rw [heq] at hret ⊢
    obtain rfl := Option.some.inj hret
    show (p.consts ++ [constant])[(BitVec.ofNat 16 p.consts.length).toNat]? = some constant
    rw [toNat_place hroom, List.getElem?_concat_length]

theorem insert_eq_iff (hp : Consistent p) (hget : p.get idx = some c) (constant : Const) :
    (p.insert constant).1 = some idx ↔ constant = c := by
  constructor
  · intro hret
    have hself := get_insert hp hret
    rw [get_step hget constant] at hself
    exact (Option.some.inj hself).symm
  · rintro rfl
    have hlookup := hp.indexed idx.toNat constant hget
    rw [BitVec.ofNat_toNat, BitVec.setWidth_eq] at hlookup
    rw [insert_hit hlookup]

/-- **Indices are stable over every history**: what an insert answered denotes its constant
from then on, an equal constant and no other gets that index again, and an insert that fails
finds the pool full and leaves it as it was. -/
theorem indices_stable (before : List Const) (constant : Const) (after : List Const) :
    ∀ p q, p = Lib.run ConstantPool.step new before →
      q = Lib.run ConstantPool.step new (before ++ constant :: after) →
      (∀ idx, (p.insert constant).1 = some idx →
        (p.insert constant).2.get idx = some constant ∧ q.get idx = some constant ∧
        ∀ c, (q.insert c).1 = some idx ↔ c = constant) ∧
      ((p.insert constant).1 = none →
        (p.insert constant).2 = p ∧ p.consts.length = maxConstants) := by
  rintro p q rfl rfl
  have hp := consistent_run consistent_new before
  have hq := consistent_run consistent_new (before ++ constant :: after)
  refine ⟨fun idx hret => ?_, fun hret => ?_⟩
  · have hself := get_insert hp hret
    have hlater := get_run hself after
    rw [← Lib.run_cons, ← Lib.run_append] at hlater
    exact ⟨hself, hlater, insert_eq_iff hq hlater⟩
  · rcases insert_cases (Lib.run ConstantPool.step new before) constant with
      ⟨i, -, heq⟩ | ⟨-, hfull, heq⟩ | ⟨-, -, heq⟩
    · rw [heq] at hret
      cases hret
    · rw [heq]
      exact ⟨rfl, Nat.le_antisymm hp.bounded hfull⟩
    · rw [heq] at hret
      cases hret

/-- Both zeros and a string, the positive zero twice. -/
theorem indices_stable_zeros :
    let p := Lib.run ConstantPool.step new [.f64 0]
    let q := Lib.run ConstantPool.step new [.f64 0, .f64 0x8000000000000000, .str32 0, .f64 0]
    (p.insert (.f64 0x8000000000000000)).1 = some 1 ∧ q.consts.length = 3 ∧
      ∀ c, (q.insert c).1 = some 1 ↔ c = .f64 0x8000000000000000 :=
  ⟨rfl, rfl, ((indices_stable [.f64 0] (.f64 0x8000000000000000) [.str32 0, .f64 0] _ _ rfl rfl).1 1
    rfl).2.2⟩

end ConstantPool

end V12.Bytecode
