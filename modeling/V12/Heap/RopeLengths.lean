/-
V12.Heap.RopeLengths — the 32-bit lengths of ropes, with `add` from
`v12-interp/src/ops.rs`.

A composite stores its length as a `u32`. `concat` adds two of them and panics
where the sum does not fit; `add` has no check of its own, so a program that
doubles a string reaches the panic.
-/
import V12.Heap.RopeRuns

namespace V12.Heap

/-! ## §1 `+` on strings -/

/-- `add` on two strings: `to_js_string` hands both back, and nothing throws. -/
def add (h : Heap) (l r : Nat) : Option (Except Unit (Heap × Nat)) := (h.concat l r).map .ok

namespace RopeState

/-- What is asked of one call: a `+` returns where the length fits and throws otherwise,
and the length arithmetic of `+`, slices and flattening does not panic. -/
def LengthSafe (s : RopeState) : StrOp → Prop
  | .concat left right =>
    if (s.units left).length + (s.units right).length < u32Limit then
      ∃ r, s.heap.add left right = some (.ok r)
    else s.heap.add left right = some (.error ())
  | .slice parent startUtf16 len => (s.heap.sliceString parent startUtf16 len).isSome
  | .flatten handle => (s.heap.flatten handle).isSome
  | .gc _ | .alloc _ | .hash _ | .intern _ => True

def LengthsRight (s : RopeState) : Prop :=
  ∀ i, s.isLive i = true → ∃ t, s.heap.str i = some t ∧ t.len = (s.units i).length

/-- The lengths a call measures fit: the sum of a `+`; the parent of a slice, unless the
window's end alone is out of range. -/
def LengthFits (s : RopeState) : StrOp → Prop
  | .concat left right => (s.units left).length + (s.units right).length < u32Limit
  | .slice parent startUtf16 len =>
    u32Limit ≤ startUtf16 + len ∨ (s.units parent).length < u32Limit
  | .gc _ | .alloc _ | .flatten _ | .hash _ | .intern _ => True

variable {s : RopeState}

theorem lengthsRight (hinv : Strings s.heap s.units) : s.LengthsRight := by
  intro i hi
  obtain ⟨n, hd⟩ := hinv.texts i hi
  exact hd.len

/-! ## §2 One call -/

theorem lengthSafe_concat (hinv : Strings s.heap s.units) {l r : Nat} (hl : s.isLive l = true)
    (hr : s.isLive r = true) : s.LengthSafe (.concat l r) ↔ s.LengthFits (.concat l r) := by
  show (if (s.units l).length + (s.units r).length < u32Limit then _ else _) ↔ _ < u32Limit
  by_cases hfit : (s.units l).length + (s.units r).length < u32Limit
  · rw [if_pos hfit]
    obtain ⟨h', i, hret, -⟩ := concat_spec hinv hl hr hfit
    exact iff_of_true ⟨(h', i), by rw [add, hret]; rfl⟩ hfit
  · rw [if_neg hfit, add, concat_panics hinv hl hr (Nat.le_of_not_lt hfit)]
    exact iff_of_false (fun h => by cases h) hfit

theorem lengthSafe_slice (hinv : Strings s.heap s.units) {p : Nat} (hp : s.isLive p = true)
    (start len : Nat) :
    s.LengthSafe (.slice p start len) ↔ s.LengthFits (.slice p start len) := by
  show (s.heap.sliceString p start len).isSome ↔
    u32Limit ≤ start + len ∨ (s.units p).length < u32Limit
  rcases sliceString_spec hinv hp start len with
    ⟨hret, hstop, hlong⟩ | ⟨hout, hret⟩ | ⟨-, hfit, h', i, hret, -⟩
  · rw [hret]
    refine iff_of_false (fun h => by cases h) ?_
    rw [not_or]
    exact ⟨Nat.not_le_of_lt hstop, Nat.not_lt_of_le hlong⟩
  · rw [hret]
    refine iff_of_true rfl ?_
    rcases hout with hstop | hlt
    · exact Or.inl hstop
    · by_cases hstop : u32Limit ≤ start + len
      · exact Or.inl hstop
      · exact Or.inr (by omega)
  · rw [hret]
    exact iff_of_true rfl (Or.inr hfit)

/-- **Step rule.** -/
theorem lengthSafe_iff (hinv : Strings s.heap s.units) {op : StrOp} (hkept : s.Kept op) :
    (s.LengthSafe op ∧ (s.step op).LengthsRight) ↔ s.LengthFits op := by
  rw [and_iff_left (lengthsRight (strings_step hinv hkept))]
  cases op with
  | concat l r => exact lengthSafe_concat hinv hkept.1 hkept.2
  | slice p start len => exact lengthSafe_slice hinv hkept start len
  | flatten i =>
    obtain ⟨h', hret, -⟩ := flatten_spec hinv hkept
    exact iff_of_true (by show (s.heap.flatten i).isSome = true; rw [hret]; rfl) trivial
  | gc op => exact Iff.rfl
  | alloc value => exact Iff.rfl
  | hash i => exact Iff.rfl
  | intern text => exact Iff.rfl

/-! ## §3 Every run -/

/-- **Exactly when no length panics**: the calls of a run are safe, and every stored length
right, where each `+` has a sum and each slice a parent of fitting length. -/
theorem lengths_iff (ops : List StrOp) (hkept : Lib.StepsMeet step Kept new ops) :
    (∀ before op after, ops = before ++ op :: after →
      (Lib.run step new before).LengthSafe op ∧
        ((Lib.run step new before).step op).LengthsRight) ↔
      Lib.StepsMeet step LengthFits new ops := by
  rw [Lib.forall_steps_iff (Q := fun (s : RopeState) op =>
    s.LengthSafe op ∧ (s.step op).LengthsRight)]
  exact Lib.stepsMeet_iff_of_invariant (I := fun s : RopeState => Strings s.heap s.units)
    (fun s op hinv hk => lengthSafe_iff hinv hk) (fun s op hinv hk => strings_step hinv hk)
    strings_new hkept

/-- A doubled leaf, and a slice past its end. -/
theorem lengths_iff_doubled :
    let ops : List StrOp :=
      [.alloc ⟨.latin1 [0x61], none⟩, .concat 0 0, .slice 1 1 5, .flatten 1]
    ∀ before op after, ops = before ++ op :: after →
      (Lib.run step new before).LengthSafe op ∧
        ((Lib.run step new before).step op).LengthsRight := by
  have hkept : Lib.StepsMeet step Kept new
      [.alloc ⟨.latin1 [0x61], none⟩, .concat 0 0, .slice 1 1 5, .flatten 1] := by
    refine ⟨⟨trivial, rfl⟩, ⟨?_, ?_⟩, ?_, ?_, trivial⟩
    · decide
    · decide
    · show isLive _ _ = true
      decide
    · show isLive _ _ = true
      decide
  refine (lengths_iff _ hkept).mpr ⟨trivial, ?_, ?_, trivial, trivial⟩
  · show List.length _ + List.length _ < u32Limit
    decide
  · show u32Limit ≤ _ ∨ List.length _ < u32Limit
    decide

/-- A leaf of `n` units. -/
def leafOf (n : Nat) : V12Str := ⟨.latin1 (List.replicate n 0x61), none⟩

theorem doubled_unsafe {n : Nat} (hlong : u32Limit ≤ n + n) :
    Lib.StepsMeet step Kept new [.alloc (leafOf n), .concat 0 0] ∧
      ¬ (Lib.run step new [.alloc (leafOf n)]).LengthSafe (.concat 0 0) := by
  have hlive : (new.step (.alloc (leafOf n))).isLive 0 = true := rfl
  have hkept : Lib.StepsMeet step Kept new [.alloc (leafOf n), .concat 0 0] :=
    ⟨⟨trivial, rfl⟩, ⟨hlive, hlive⟩, trivial⟩
  refine ⟨hkept, fun hsafe => ?_⟩
  have hinv := strings_step strings_new hkept.1
  have hfits := (lengthSafe_concat hinv hlive hlive).mp hsafe
  have hunits : (new.step (.alloc (leafOf n))).units 0 = (List.replicate n 0x61).map widen := rfl
  rw [LengthFits, hunits, List.length_map, List.length_replicate] at hfits
  exact absurd hfits (Nat.not_lt_of_le hlong)

/-- A leaf of 2³¹ units added to itself panics. -/
theorem not_lengthSafe :
    ¬ ∀ ops : List StrOp, Lib.StepsMeet step Kept new ops → ∀ before op after,
      ops = before ++ op :: after →
        (Lib.run step new before).LengthSafe op ∧
          ((Lib.run step new before).step op).LengthsRight := by
  intro hall
  obtain ⟨n, hlong⟩ : ∃ n, u32Limit ≤ n + n := ⟨2147483648, by unfold u32Limit; omega⟩
  obtain ⟨hkept, hunsafe⟩ := doubled_unsafe hlong
  exact hunsafe (hall _ hkept [.alloc (leafOf n)] (.concat 0 0) [] rfl).1

end RopeState

end V12.Heap
