/-
V12.Heap.StubCache — the stub cache, from `v12-heap/src/stub_cache.rs`.

A table of 1024 slots, probed at two addresses that a hash of the shape and
the key picks. An entry counts while its stamp is the table's generation
(`Current`): a hit is one of them with the caller's observations matched, a
record adds one, and a clear leaves none.
-/
import Mathlib.Algebra.Ring.Nat
import Mathlib.Logic.Function.Basic
import V12.Heap.Shape

namespace V12.Heap

/-! ## §1 The table -/

/-- `STUB_CACHE_CAPACITY`. -/
def stubCacheCapacity : Nat := 1024

/-- `as_u32`: the packed word of a key. -/
def PropKey.asU32 : PropKey → BitVec 32
  | .string h => BitVec.ofNat 32 h
  | .symbol h => BitVec.twoPow 32 31 ||| BitVec.ofNat 32 h

/-- `u32::MAX`, the placeholder of handles and shapes. -/
def noHandle : Nat := 0xFFFFFFFF

/-- One probe address; `holderShape` names the shape of `holder` when recorded,
`link0` and `link1` the links of the receiver and of `link0`, `midShape` the
shape of `link0`. -/
structure StubSlot where
  stamp : Nat
  shape : Nat
  key : PropKey
  slot : Nat
  holder : Nat
  holderShape : Nat
  link0 : Option Nat
  link1 : Option Nat
  midShape : Nat
  protoGen : BitVec 64
  deriving DecidableEq

/-- `ProtoHit`. -/
structure ProtoHit where
  target : Nat
  slot : Nat
  holderShape : Nat
  isOwn : Bool
  deriving DecidableEq

structure StubCache where
  slots : Nat → StubSlot
  generation : Nat

/-- What a lookup or a record observes of the chain of a receiver. -/
structure Chain where
  protoGen : BitVec 64
  link0 : Option Nat
  link1 : Option Nat
  midShape : Nat
  deriving DecidableEq

/-- Every recorded verify of the entry still holds. -/
def StubSlot.Verifies (e : StubSlot) (chain : Chain) : Prop :=
  e.protoGen = chain.protoGen ∧ (e.link0.isSome →
    e.link0 = chain.link0 ∧ e.link1 = chain.link1 ∧ e.midShape = chain.midShape)

instance (e : StubSlot) (chain : Chain) : Decidable (StubSlot.Verifies e chain) :=
  inferInstanceAs (Decidable (_ ∧ _))

/-- `stub_hash`. -/
def stubHash (shape : Nat) (key : PropKey) : BitVec 64 :=
  let z := (BitVec.ofNat 64 shape <<< 32) ||| key.asU32.zeroExtend 64
  let z := (z ^^^ (z >>> 30)) * 0xBF58476D1CE4E5B9#64
  let z := (z ^^^ (z >>> 27)) * 0x94D049BB133111EB#64
  z ^^^ (z >>> 31)

def homeIndex (hash : BitVec 64) : Nat := hash.toNat % stubCacheCapacity

/-- `probe_step`. -/
def probeStep (hash : BitVec 64) : Nat := ((hash >>> 32) ||| 1#64).toNat % stubCacheCapacity

def altIndex (hash : BitVec 64) : Nat := (homeIndex hash + probeStep hash) % stubCacheCapacity

namespace StubCache

variable {c : StubCache}

/-- `StubCache::default`. -/
def new : StubCache where
  slots _ := ⟨0, noHandle, .string 0, 0, noHandle, noHandle, none, none, noHandle, 0⟩
  generation := 1

/-- The slot is taken by a current entry of another pair. -/
def Taken (c : StubCache) (i shape : Nat) (key : PropKey) : Prop :=
  (c.slots i).stamp = c.generation ∧ ¬((c.slots i).shape = shape ∧ (c.slots i).key = key)

instance (c : StubCache) (i shape : Nat) (key : PropKey) : Decidable (c.Taken i shape key) :=
  inferInstanceAs (Decidable (_ ∧ _))

/-- `place`: home, else the secondary address, else home is evicted. -/
def place (c : StubCache) (hash : BitVec 64) (written : StubSlot) : StubCache :=
  let at_ (i : Nat) : StubCache := { c with slots := Function.update c.slots i written }
  if ¬c.Taken (homeIndex hash) written.shape written.key then at_ (homeIndex hash)
  else if ¬c.Taken (altIndex hash) written.shape written.key then at_ (altIndex hash)
  else at_ (homeIndex hash)

/-- `record_proto`. -/
def recordProto (c : StubCache) (shape : Nat) (key : PropKey) (holder holderShape slot : Nat)
    (chain : Chain) : StubCache :=
  c.place (stubHash shape key)
    ⟨c.generation, shape, key, slot, holder, holderShape, chain.link0, chain.link1, chain.midShape,
      chain.protoGen⟩

/-- `matching_proto`. -/
def matchingProto (c : StubCache) (i receiver shape : Nat) (key : PropKey) (chain : Chain) :
    Option ProtoHit :=
  let entry := c.slots i
  if entry.stamp = c.generation ∧ entry.shape = shape ∧ entry.key = key ∧
      entry.Verifies chain then
    let isOwn := entry.link0.isNone
    some ⟨if isOwn then receiver else entry.holder, entry.slot, entry.holderShape, isOwn⟩
  else none

/-- `lookup_proto`: the secondary address only counts behind a current home. -/
def lookupProto (c : StubCache) (receiver shape : Nat) (key : PropKey) (chain : Chain) :
    Option ProtoHit :=
  let hash := stubHash shape key
  match c.matchingProto (homeIndex hash) receiver shape key chain with
  | some hit => some hit
  | none =>
    if (c.slots (homeIndex hash)).stamp = c.generation then
      c.matchingProto (altIndex hash) receiver shape key chain
    else none

/-- `clear`: the counter is a 64-bit word. -/
def clear (c : StubCache) : StubCache := { c with generation := (c.generation + 1) % 2 ^ 64 }

/-! ## §2 The entries that count -/

/-- The entry is in the table and of its generation. -/
def Current (c : StubCache) (e : StubSlot) : Prop := ∃ i, c.slots i = e ∧ e.stamp = c.generation

def Stamped (c : StubCache) : Prop := ∀ i, (c.slots i).stamp ≤ c.generation

/-- **A hit is a current entry** for the pair whose verifies hold. -/
theorem lookupProto_some {receiver shape : Nat} {key : PropKey} {chain : Chain} {hit : ProtoHit}
    (h : c.lookupProto receiver shape key chain = some hit) :
    ∃ e, c.Current e ∧ e.shape = shape ∧ e.key = key ∧ e.Verifies chain ∧
      hit = ⟨if e.link0.isNone then receiver else e.holder, e.slot, e.holderShape, e.link0.isNone⟩ := by
  have matching {i : Nat} (hm : c.matchingProto i receiver shape key chain = some hit) :
      ∃ e, c.Current e ∧ e.shape = shape ∧ e.key = key ∧ e.Verifies chain ∧
        hit = ⟨if e.link0.isNone then receiver else e.holder, e.slot, e.holderShape,
          e.link0.isNone⟩ := by
    unfold matchingProto at hm
    simp only [] at hm
    split at hm
    case isTrue hmatch =>
      obtain ⟨hstamp, hshape, hkey, hverify⟩ := hmatch
      exact ⟨c.slots i, ⟨i, rfl, hstamp⟩, hshape, hkey, hverify, (Option.some.inj hm).symm⟩
    case isFalse => cases hm
  unfold lookupProto at h
  simp only [] at h
  split at h
  case h_1 hhome =>
    cases h
    exact matching hhome
  case h_2 =>
    split at h
    · exact matching h
    · cases h

theorem place_slots (c : StubCache) (hash : BitVec 64) (written : StubSlot) :
    ∃ i, c.place hash written = { c with slots := Function.update c.slots i written } := by
  unfold place
  simp only []
  split
  · exact ⟨_, rfl⟩
  · split
    · exact ⟨_, rfl⟩
    · exact ⟨_, rfl⟩

theorem current_place {hash : BitVec 64} {written e : StubSlot}
    (h : (c.place hash written).Current e) : c.Current e ∨ e = written := by
  obtain ⟨i, heq⟩ := place_slots c hash written
  rw [heq] at h
  obtain ⟨j, hslot, hstamp⟩ := h
  by_cases hj : j = i
  · subst hj
    simp only [Function.update_self] at hslot
    exact Or.inr hslot.symm
  · simp only [Function.update_of_ne hj] at hslot
    exact Or.inl ⟨j, hslot, hstamp⟩

theorem stamped_place (hc : c.Stamped) {hash : BitVec 64} {written : StubSlot}
    (hw : written.stamp = c.generation) : (c.place hash written).Stamped := by
  obtain ⟨i, heq⟩ := place_slots c hash written
  rw [heq]
  intro j
  by_cases hj : j = i
  · subst hj
    simp only [Function.update_self]
    exact Nat.le_of_eq hw
  · simp only [Function.update_of_ne hj]
    exact hc j

/-- **A clear leaves no current entry**, as long as the counter does not wrap. -/
theorem not_current_clear (hc : c.Stamped) (hroom : c.generation + 1 < 2 ^ 64) (e : StubSlot) :
    ¬c.clear.Current e := by
  rintro ⟨i, hslot, hstamp⟩
  have hle := hc i
  have hclear : c.clear.generation = c.generation + 1 := Nat.mod_eq_of_lt hroom
  have hsame : c.slots i = e := hslot
  rw [hclear, ← hsame] at hstamp
  omega

theorem stamped_clear (hc : c.Stamped) (hroom : c.generation + 1 < 2 ^ 64) :
    c.clear.Stamped := by
  intro i
  have hclear : c.clear.generation = c.generation + 1 := Nat.mod_eq_of_lt hroom
  rw [hclear]
  exact Nat.le_succ_of_le (hc i)

theorem stamped_new : new.Stamped := fun _ => Nat.zero_le _

theorem not_current_new (e : StubSlot) : ¬new.Current e := by
  rintro ⟨i, hslot, hstamp⟩
  rw [← hslot] at hstamp
  cases hstamp

end StubCache

end V12.Heap
