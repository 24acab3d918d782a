/-
V12.Heap.RopeWalk — the walk over a rope reads its text.

The live strings of a heap are a table of rope nodes. `walks_window`: from a
task the walk visits, in order and inside the bounds of every leaf, the units of
the task's window and no others, whatever the sharing below the node; the rest
follows for materializing, hashing and comparing.
-/
import V12.Heap.Ropes
import V12.Heap.GcTheorems
import V12.Lib.Rope

namespace V12.Heap

open Lib.Rope (Node)

/-! ## §1 The table of nodes -/

def StrStorage.node : StrStorage → Node (BitVec 16)
  | .latin1 bytes => .leaf (bytes.map widen)
  | .utf16 units => .leaf units
  | .cons left right len => .cons left right len
  | .sliced parent startUtf16 len => .slice parent startUtf16 len

def nodes (h : Heap) (i : Nat) : Option (Node (BitVec 16)) :=
  if h.isAlive (.strings, i) then (h.str i).map fun s => s.storage.node else none

abbrev Denotes (h : Heap) (i : Nat) (units : List (BitVec 16)) (height : Nat) : Prop :=
  Lib.Rope.Denotes u32Limit h.nodes i units height

variable {h : Heap}
variable {i n m take : Nat} {u : List (BitVec 16)} {storage : StrStorage} {s : V12Str}
  {push : List WalkTask → List WalkTask}

theorem nodes_eq_some {node : Node (BitVec 16)} :
    h.nodes i = some node ↔
      h.isAlive (.strings, i) = true ∧ ∃ s, h.str i = some s ∧ s.storage.node = node := by
  unfold nodes
  split
  case isTrue halive => simp [halive]
  case isFalse halive => simp [halive]

theorem nodes_isSome_lt (hi : (h.nodes i).isSome) :
    i < (h.spaces .strings).slots.length := by
  obtain ⟨node, hnode⟩ := Option.isSome_iff_exists.mp hi
  exact SpaceState.isAlive_lt (nodes_eq_some.mp hnode).1

theorem Denotes.alive (hd : Denotes h i u n) :
    h.isAlive (.strings, i) = true := by
  obtain ⟨node, hnode⟩ := Option.isSome_iff_exists.mp hd.isSome
  exact (nodes_eq_some.mp hnode).1

theorem Denotes.height_le (hd : Denotes h i u n) :
    n ≤ (h.spaces .strings).slots.length :=
  Lib.Rope.Denotes.height_le (fun _ hi => nodes_isSome_lt hi) hd

-- The equations are made here, ahead of the proofs below that all ask for them.
attribute [local simp] StrStorage.node nodes

theorem StrStorage.node_leaf :
    storage.node = .leaf u ↔ storage.flatUnits = some u := by
  cases storage with
  | latin1 bytes =>
    show Node.leaf (bytes.map widen) = .leaf u ↔ some (bytes.map widen) = some u
    simp
  | _ => simp [StrStorage.node, StrStorage.flatUnits]

theorem StrStorage.node_cons {l r len : Nat} :
    storage.node = .cons l r len ↔ storage = .cons l r len := by
  cases storage <;> simp [StrStorage.node]

theorem StrStorage.node_slice {p start len : Nat} :
    storage.node = .slice p start len ↔ storage = .sliced p start len := by
  cases storage <;> simp [StrStorage.node]

theorem len_of_flat (hu : s.storage.flatUnits = some u) :
    s.len = u.length := by
  unfold V12Str.len
  cases hstorage : s.storage with
  | latin1 bytes =>
    rw [hstorage] at hu
    cases hu
    simp
  | utf16 units =>
    rw [hstorage] at hu
    cases hu
    rfl
  | cons l r len => rw [hstorage] at hu; cases hu
  | sliced p start len => rw [hstorage] at hu; cases hu

/-- **The stored length is the number of units.** -/
theorem Denotes.len (hd : Denotes h i u n) :
    ∃ s, h.str i = some s ∧ s.len = u.length := by
  cases hd with
  | leaf hget =>
    obtain ⟨-, s, hs, hnode⟩ := nodes_eq_some.mp hget
    exact ⟨s, hs, len_of_flat (StrStorage.node_leaf.mp hnode)⟩
  | cons hget hl hr hlen =>
    obtain ⟨-, s, hs, hnode⟩ := nodes_eq_some.mp hget
    refine ⟨s, hs, ?_⟩
    rw [V12Str.len, StrStorage.node_cons.mp hnode, List.length_append]
    exact hlen
  | slice hget hp hbounds =>
    obtain ⟨-, s, hs, hnode⟩ := nodes_eq_some.mp hget
    refine ⟨s, hs, ?_⟩
    rw [V12Str.len, StrStorage.node_slice.mp hnode, List.length_take, List.length_drop]
    simp only
    omega

/-! ## §2 Windows -/

def pushTask (stack : List WalkTask) (node skip take : Nat) : List WalkTask :=
  if 0 < take then ⟨node, skip, take⟩ :: stack else stack

/-- From the tasks `push` puts on any stack the walk visits exactly `units`, in at most
`steps` turns. -/
def Walks (h : Heap) (push : List WalkTask → List WalkTask) (units : List (BitVec 16))
    (steps : Nat) : Prop :=
  ∃ k runs, k ≤ steps ∧ runs.flatMap LeafRun.units = units ∧
    ∀ fuel stack, h.walkFrom (k + fuel) (push stack) = (h.walkFrom fuel stack).map (runs ++ ·)

theorem Walks.nothing : Walks h id [] 0 :=
  ⟨0, [], Nat.le_refl 0, rfl, fun fuel stack => by
    rw [Nat.zero_add, id_eq]
    cases h.walkFrom fuel stack <;> rfl⟩

theorem Walks.append {push' : List WalkTask → List WalkTask} {v : List (BitVec 16)}
    (hu : Walks h push u m) (hv : Walks h push' v n) :
    Walks h (fun stack => push (push' stack)) (u ++ v) (m + n) := by
  obtain ⟨k, runs, hk, hruns, hwalk⟩ := hu
  obtain ⟨k', runs', hk', hruns', hwalk'⟩ := hv
  refine ⟨k + k', runs ++ runs', by omega, ?_, fun fuel stack => ?_⟩
  · rw [List.flatMap_append, hruns, hruns']
  · rw [Nat.add_assoc, hwalk, hwalk', Option.map_map]
    congr 1
    funext rest
    exact (List.append_assoc runs runs' rest).symm

theorem Walks.mono (hu : Walks h push u m) (hmn : m ≤ n) : Walks h push u n := by
  obtain ⟨k, runs, hk, hrest⟩ := hu
  exact ⟨k, runs, Nat.le_trans hk hmn, hrest⟩

theorem Walks.turn {push' : List WalkTask → List WalkTask} (hu : Walks h push u n)
    (hturn : ∀ fuel stack, h.walkFrom (fuel + 1) (push' stack) = h.walkFrom fuel (push stack)) :
    Walks h push' u (n + 1) := by
  obtain ⟨k, runs, hk, hruns, hwalk⟩ := hu
  refine ⟨k + 1, runs, by omega, hruns, fun fuel stack => ?_⟩
  rw [Nat.add_right_comm, hturn, hwalk]

theorem Walks.run {fuel : Nat} (hu : Walks h push u n) (hfuel : n ≤ fuel) :
    ∃ runs, h.walkFrom fuel (push []) = some runs ∧ runs.flatMap LeafRun.units = u := by
  obtain ⟨k, runs, hk, hruns, hwalk⟩ := hu
  refine ⟨runs, ?_, hruns⟩
  have hsplit : fuel = k + (fuel - k) := by omega
  rw [hsplit, hwalk]
  cases fuel - k <;> simp [walkFrom]

/-! ## §3 The walk of a window -/

theorem checkedAdd_of_lt {a b : Nat} (hab : a + b < u32Limit) : checkedAdd a b = some (a + b) :=
  if_pos hab

theorem lenU32_of_lt (hs : s.len < u32Limit) : s.lenU32 = some s.len := if_pos hs

theorem queueConsRange_eq {l : Nat} (hl : Denotes h l u m) (r skip : Nat) (hpos : 0 < take)
    (hfit : u.length < u32Limit) (hstop : skip + take < u32Limit) (stack : List WalkTask) :
    h.queueConsRange stack l r skip take =
      some (pushTask (pushTask stack r (skip - u.length) (skip + take - max u.length skip)) l skip
        (min u.length (skip + take) - skip)) := by
  obtain ⟨s, hs, hlen⟩ := hl.len
  have hright : u.length < skip + take ↔ 0 < skip + take - max u.length skip := by omega
  have hleft : skip < min u.length (skip + take) ↔ 0 < min u.length (skip + take) - skip := by omega
  unfold queueConsRange pushTask
  simp only [hs, lenU32_of_lt (hlen ▸ hfit), hlen, checkedAdd_of_lt hstop, Option.bind_eq_bind,
    Option.bind_some, hright, hleft]

theorem window_append (u v : List (BitVec 16)) (skip take : Nat) :
    ((u ++ v).drop skip).take take =
      (u.drop skip).take (min u.length (skip + take) - skip) ++
        (v.drop (skip - u.length)).take (skip + take - max u.length skip) := by
  rw [List.drop_append, List.take_append, List.length_drop]
  congr 1
  · by_cases hle : u.length ≤ skip
    · rw [List.drop_eq_nil_of_le hle, List.take_nil, List.take_nil]
    · have htake : (u.drop skip).length = u.length - skip := List.length_drop
      by_cases hin : skip + take ≤ u.length
      · rw [Nat.min_eq_right hin, Nat.add_sub_cancel_left]
      · rw [List.take_of_length_le (by omega), List.take_of_length_le (by omega)]
  · congr 1
    omega

theorem walks_leaf {skip : Nat} (hs : h.str i = some s) (hu : s.storage.flatUnits = some u)
    (hle : skip + take ≤ u.length) :
    Walks h (fun stack => ⟨i, skip, take⟩ :: stack) ((u.drop skip).take take) 1 := by
  cases hstorage : s.storage with
  | latin1 bytes =>
    rw [hstorage] at hu
    obtain rfl : bytes.map widen = u := Option.some.inj hu
    rw [List.length_map] at hle
    refine ⟨1, [.latin1 ((bytes.drop skip).take take)], Nat.le_refl 1, ?_, fun fuel stack => ?_⟩
    · simp [LeafRun.units]
    · rw [Nat.add_comm 1 fuel, walkFrom]
      simp only [hs, hstorage, leafWindow, if_pos hle, Option.bind_some]
      rfl
  | utf16 units =>
    rw [hstorage] at hu
    obtain rfl : units = u := Option.some.inj hu
    refine ⟨1, [.utf16 ((units.drop skip).take take)], Nat.le_refl 1, ?_, fun fuel stack => ?_⟩
    · simp [LeafRun.units]
    · rw [Nat.add_comm 1 fuel, walkFrom]
      simp only [hs, hstorage, leafWindow, if_pos hle, Option.bind_some]
      rfl
  | cons l r len => rw [hstorage] at hu; cases hu
  | sliced p start len => rw [hstorage] at hu; cases hu

theorem walks_pushTask (i skip take n : Nat) (u : List (BitVec 16))
    (hwalks : 0 < take → skip + take ≤ u.length →
      Walks h (fun stack => ⟨i, skip, take⟩ :: stack) ((u.drop skip).take take) (take * n))
    (hle : 0 < take → skip + take ≤ u.length) :
    Walks h (fun stack => pushTask stack i skip take) ((u.drop skip).take take) (take * n) := by
  by_cases hpos : 0 < take
  · simp only [pushTask, if_pos hpos]
    exact hwalks hpos (hle hpos)
  · obtain rfl : take = 0 := by omega
    simp only [pushTask, Nat.lt_irrefl, if_false, List.take_zero, Nat.zero_mul]
    exact Walks.nothing

/-- **A task visits its window**: in order, inside the bounds of every leaf, and in at
most as many turns as the window is long times the tree is high. -/
theorem walks_window (hd : Denotes h i u n) (hfit : u.length < u32Limit) {skip : Nat}
    (hpos : 0 < take) (hle : skip + take ≤ u.length) :
    Walks h (fun stack => ⟨i, skip, take⟩ :: stack) ((u.drop skip).take take) (take * n) := by
  induction hd generalizing skip take with
  | @leaf i u hget =>
    obtain ⟨-, s, hs, hnode⟩ := nodes_eq_some.mp hget
    exact (walks_leaf hs (StrStorage.node_leaf.mp hnode) hle).mono (by omega)
  | @cons i l r len u v m n hget hl hr hlen hcap ihl ihr =>
    obtain ⟨-, s, hs, hnode⟩ := nodes_eq_some.mp hget
    have hstorage := StrStorage.node_cons.mp hnode
    rw [List.length_append] at hfit hle
    -- the left part, then the right part of the window
    have hleft := walks_pushTask l skip (min u.length (skip + take) - skip) m u
      (fun hp hb => ihl (by omega) hp hb) (by omega)
    have hright := walks_pushTask r (skip - u.length) (skip + take - max u.length skip) n v
      (fun hp hb => ihr (by omega) hp hb) (by omega)
    rw [window_append]
    refine ((hleft.append hright).turn fun fuel stack => ?_).mono ?_
    · rw [walkFrom]
      have hqueue := queueConsRange_eq hl r skip hpos (by omega) (by omega) stack
      simp only [hs, hstorage, hqueue, Option.bind_some]
    · have hparts :
          min u.length (skip + take) - skip + (skip + take - max u.length skip) = take := by
        omega
      have hm : (min u.length (skip + take) - skip) * m ≤
          (min u.length (skip + take) - skip) * max m n :=
        Nat.mul_le_mul_left _ (Nat.le_max_left m n)
      have hn : (skip + take - max u.length skip) * n ≤
          (skip + take - max u.length skip) * max m n :=
        Nat.mul_le_mul_left _ (Nat.le_max_right m n)
      have hsum : take * max m n = (min u.length (skip + take) - skip) * max m n +
          (skip + take - max u.length skip) * max m n := by
        rw [← Nat.add_mul, hparts]
      rw [Nat.mul_add, Nat.mul_one]
      omega
  | @slice i p start len u n hget hp hbounds hcap ih =>
    obtain ⟨-, s, hs, hnode⟩ := nodes_eq_some.mp hget
    have hstorage := StrStorage.node_slice.mp hnode
    rw [List.length_take, List.length_drop] at hle hfit
    have hwindow : ((((u.drop start).take len).drop skip).take take) =
        (u.drop (start + skip)).take take := by
      rw [List.drop_take, List.take_take, List.drop_drop, Nat.min_eq_left (by omega)]
    rw [hwindow]
    refine ((ih hcap hpos (by omega)).turn fun fuel stack => ?_).mono ?_
    · rw [walkFrom]
      simp only [hs, hstorage, checkedAdd_of_lt (show start + skip < u32Limit by omega),
        Option.bind_some]
    · rw [Nat.mul_add, Nat.mul_one]
      omega

/-! ## §4 Whole texts -/

theorem fuel_enough (hd : Denotes h i u n) (take : Nat) :
    take * n ≤ h.walkFuel take :=
  Nat.le_succ_of_le (Nat.mul_le_mul_left take hd.height_le)

theorem walkLeaves_resident (hd : Denotes h i u n) (hfit : u.length < u32Limit) :
    ∃ runs, h.walkLeaves (.resident i) = some runs ∧ runs.flatMap LeafRun.units = u := by
  obtain ⟨s, hs, hlen⟩ := hd.len
  have hwalk := walks_pushTask i 0 u.length n u
    (fun hp hb => walks_window hd hfit hp hb) (fun _ => by omega)
  obtain ⟨runs, hruns, hunits⟩ := hwalk.run (fuel_enough hd u.length)
  refine ⟨runs, ?_, ?_⟩
  · simp only [walkLeaves, hs, lenU32_of_lt (hlen ▸ hfit), hlen, Option.bind_eq_bind,
      Option.bind_some]
    exact hruns
  · rw [hunits, List.drop_zero, List.take_length]

theorem walkLeaves_resident_long (hd : Denotes h i u n) (hlong : u32Limit ≤ u.length) :
    h.walkLeaves (.resident i) = none := by
  obtain ⟨s, hs, hlen⟩ := hd.len
  have hpanic : s.lenU32 = none := if_neg (by rw [hlen]; exact Nat.not_lt_of_le hlong)
  simp only [walkLeaves, hs, hpanic, Option.bind_eq_bind, Option.bind_some, Option.bind_none]

/-- The code units of a string its caller owns; composite ones name live strings. -/
def OwnedDenotes (h : Heap) (storage : StrStorage) (units : List (BitVec 16)) : Prop :=
  match storage with
  | .latin1 bytes => units = bytes.map widen
  | .utf16 leaf => units = leaf
  | .cons left right len => ∃ u m v n, Denotes h left u m ∧ Denotes h right v n ∧
      len = u.length + v.length ∧ len < u32Limit ∧ units = u ++ v
  | .sliced parent startUtf16 len => ∃ u n, Denotes h parent u n ∧ startUtf16 + len ≤ u.length ∧
      u.length < u32Limit ∧ units = (u.drop startUtf16).take len

theorem walkLeaves_owned {value : V12Str} (hu : OwnedDenotes h value.storage u) :
    ∃ runs, h.walkLeaves (.owned value) = some runs ∧ runs.flatMap LeafRun.units = u := by
  cases hstorage : value.storage with
  | latin1 bytes =>
    rw [hstorage] at hu
    cases bytes with
    | nil => exact ⟨[], by simp [walkLeaves, hstorage], hu.symm⟩
    | cons b bytes =>
      exact ⟨[.latin1 (b :: bytes)], by simp [walkLeaves, hstorage],
        (List.append_nil _).trans hu.symm⟩
  | utf16 units =>
    rw [hstorage] at hu
    cases units with
    | nil => exact ⟨[], by simp [walkLeaves, hstorage], hu.symm⟩
    | cons b units =>
      exact ⟨[.utf16 (b :: units)], by simp [walkLeaves, hstorage],
        (List.append_nil _).trans hu.symm⟩
  | cons l r len =>
    rw [hstorage] at hu
    obtain ⟨a, m, b, n, hl, hr, hlen, hcap, rfl⟩ := hu
    by_cases hpos : 0 < len
    · have hleft := walks_pushTask l 0 (min a.length (0 + len) - 0) m a
        (fun hp hb => walks_window hl (by omega) hp hb) (by omega)
      have hright := walks_pushTask r (0 - a.length) (0 + len - max a.length 0) n b
        (fun hp hb => walks_window hr (by omega) hp hb) (by omega)
      have hfuel : (min a.length (0 + len) - 0) * m + (0 + len - max a.length 0) * n ≤
          h.walkFuel len := by
        have hm := Nat.mul_le_mul_left (min a.length (0 + len) - 0) hl.height_le
        have hn := Nat.mul_le_mul_left (0 + len - max a.length 0) hr.height_le
        have hsum : (min a.length (0 + len) - 0) + (0 + len - max a.length 0) = len := by omega
        have hparts := Nat.add_mul (min a.length (0 + len) - 0) (0 + len - max a.length 0)
          (h.spaces .strings).slots.length
        rw [hsum] at hparts
        unfold walkFuel
        omega
      obtain ⟨runs, hruns, hunits⟩ := (hleft.append hright).run hfuel
      refine ⟨runs, ?_, ?_⟩
      · have hqueue := queueConsRange_eq hl r 0 hpos (by omega) (by omega) []
        simp only [walkLeaves, hstorage, if_pos hpos, hqueue, Option.bind_some]
        exact hruns
      · rw [hunits, ← window_append, List.drop_zero, hlen, ← List.length_append, List.take_length]
    · have hnil : a ++ b = [] := List.length_eq_zero_iff.mp (by rw [List.length_append]; omega)
      refine ⟨[], ?_, hnil.symm⟩
      simp only [walkLeaves, hstorage, if_neg hpos]
  | sliced p start len =>
    rw [hstorage] at hu
    obtain ⟨a, n, hp, hbounds, hcap, rfl⟩ := hu
    have hwalk := walks_pushTask p start len n a
      (fun hpos hb => walks_window hp hcap hpos hb) (fun _ => hbounds)
    obtain ⟨runs, hruns, hunits⟩ := hwalk.run (fuel_enough hp len)
    refine ⟨runs, ?_, hunits⟩
    simp only [walkLeaves, hstorage]
    exact hruns

/-! ## §5 Materializing -/

def Buffers.units (b : Buffers) : List (BitVec 16) :=
  if b.allLatin1 then b.latin1.map widen else b.utf16

def Buffers.Fresh (b : Buffers) : Prop := b.allLatin1 = true → b.utf16 = []

theorem Buffers.visit_units {b : Buffers} (hb : b.Fresh) (run : LeafRun) :
    (b.visit run).units = b.units ++ run.units ∧ (b.visit run).Fresh := by
  cases hall : b.allLatin1 with
  | true =>
    have hempty := hb hall
    cases run with
    | latin1 bytes =>
      simp [Buffers.visit, Buffers.units, Buffers.Fresh, LeafRun.units, hall, hempty]
    | utf16 units => simp [Buffers.visit, Buffers.units, Buffers.Fresh, LeafRun.units, hall, hempty]
  | false =>
    cases run with
    | latin1 bytes => simp [Buffers.visit, Buffers.units, Buffers.Fresh, LeafRun.units, hall]
    | utf16 units => simp [Buffers.visit, Buffers.units, Buffers.Fresh, LeafRun.units, hall]

theorem Buffers.foldl_units (runs : List LeafRun) : ∀ {b : Buffers}, b.Fresh →
    (runs.foldl Buffers.visit b).units = b.units ++ runs.flatMap LeafRun.units := by
  induction runs with
  | nil => exact fun _ => (List.append_nil _).symm
  | cons run runs ih =>
    intro b hb
    obtain ⟨hunits, hfresh⟩ := Buffers.visit_units hb run
    rw [List.foldl_cons, ih hfresh, hunits, List.flatMap_cons, List.append_assoc]

theorem Buffers.text_units (b : Buffers) : b.text.storage.flatUnits = some b.units := by
  unfold Buffers.text Buffers.units
  cases b.allLatin1 <;> rfl

/-- **Materializing keeps the text.** -/
theorem materialize_units {seed : Seed} {runs : List LeafRun}
    (hruns : h.walkLeaves seed = some runs) : ∃ text, h.materialize seed = some text ∧
      text.storage.flatUnits = some (runs.flatMap LeafRun.units) := by
  refine ⟨_, by rw [materialize, hruns]; rfl, ?_⟩
  rw [Buffers.text_units, Buffers.foldl_units runs (fun _ => rfl)]
  rfl

theorem materialize_resident (hd : Denotes h i u n) (hfit : u.length < u32Limit) :
    ∃ text, h.materialize (.resident i) = some text ∧ text.storage.flatUnits = some u := by
  obtain ⟨runs, hruns, rfl⟩ := walkLeaves_resident hd hfit
  exact materialize_units hruns

/-! ## §6 Hashing and comparing -/

theorem contentHash_units {seed : Seed} {runs : List LeafRun}
    (hruns : h.walkLeaves seed = some runs) :
    h.contentHash seed = some (fnv (runs.flatMap LeafRun.units)) := by
  rw [contentHash, hruns, Option.map_some, fnv, List.flatMap_def, List.foldl_flatten,
    List.foldl_map]

theorem widen_injective : Function.Injective widen := by
  intro a b hab
  have hnat := congrArg BitVec.toNat hab
  simp only [widen, BitVec.toNat_setWidth] at hnat
  have ha := a.isLt
  have hb := b.isLt
  rw [Nat.mod_eq_of_lt (by omega), Nat.mod_eq_of_lt (by omega)] at hnat
  exact BitVec.eq_of_toNat_eq hnat

/-- **`flat_units_equal` compares the units**, whatever the widths. -/
theorem flatUnitsEqual_iff {a b : StrStorage} {v : List (BitVec 16)} (hu : a.flatUnits = some u)
    (hv : b.flatUnits = some v) :
    flatUnitsEqual a b = decide (u = v) := by
  cases a with
  | latin1 x =>
    obtain rfl : x.map widen = u := Option.some.inj hu
    cases b with
    | latin1 y =>
      obtain rfl : y.map widen = v := Option.some.inj hv
      rw [flatUnitsEqual, Bool.eq_iff_iff, beq_iff_eq, decide_eq_true_iff]
      exact (List.map_injective_iff.mpr widen_injective).eq_iff.symm
    | utf16 y =>
      obtain rfl : y = v := Option.some.inj hv
      rw [flatUnitsEqual, Bool.eq_iff_iff, beq_iff_eq, decide_eq_true_iff]
    | cons l r len => cases hv
    | sliced p start len => cases hv
  | utf16 x =>
    obtain rfl : x = u := Option.some.inj hu
    cases b with
    | latin1 y =>
      obtain rfl : y.map widen = v := Option.some.inj hv
      rw [flatUnitsEqual, Bool.eq_iff_iff, beq_iff_eq, decide_eq_true_iff]
      exact eq_comm
    | utf16 y =>
      obtain rfl : y = v := Option.some.inj hv
      rw [flatUnitsEqual, Bool.eq_iff_iff, beq_iff_eq, decide_eq_true_iff]
    | cons l r len => cases hv
    | sliced p start len => cases hv
  | cons l r len => cases hu
  | sliced p start len => cases hu

end V12.Heap
