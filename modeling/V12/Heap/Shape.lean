/-
V12.Heap.Shape — property keys, descriptors and transition tables, from
`v12-heap/src/prop_key.rs` and `v12-heap/src/shape.rs`.

`Descriptors` and `Transitions` have a small inline tier scanned in order, and
a large one behind an index or a hash map; the tiers carry their own
well-formedness. The tiers do not show in a lookup (`Descriptors.find_eq`).
-/
import Mathlib.Tactic.Common

namespace V12.Heap

/-- `PropKey`: a string or a symbol handle, an index into that heap space. The
tag bit of the packed word is the constructor. -/
inductive PropKey where
  | string (h : Nat)
  | symbol (h : Nat)
  deriving DecidableEq, Repr

/-- Property attributes, one bit each. -/
structure Attrs where
  bits : BitVec 8
  deriving DecidableEq, Repr

namespace Attrs

def writable (a : Attrs) : Bool := a.bits.getLsbD 0
def enumerable (a : Attrs) : Bool := a.bits.getLsbD 1
def configurable (a : Attrs) : Bool := a.bits.getLsbD 2

/-- `Attrs::DEFAULT`, what plain assignment produces. -/
def default : Attrs := ⟨0b111⟩

/-- `Attrs::BUILTIN`: writable and configurable. -/
def builtin : Attrs := ⟨0b101⟩

/-- `Attrs::ENUMERABLE_ACCESSOR`: enumerable and configurable. -/
def enumerableAccessor : Attrs := ⟨0b110⟩

end Attrs

/-! ## §1 Descriptors -/

/-- One own-property record. -/
inductive Descriptor where
  | data (key : PropKey) (slot : Nat) (attrs : Attrs)
  | accessor (key : PropKey) (getter setter : Option Nat) (attrs : Attrs)
  deriving DecidableEq, Repr

namespace Descriptor

def key : Descriptor → PropKey
  | .data key _ _ => key
  | .accessor key _ _ _ => key

def attrs : Descriptor → Attrs
  | .data _ _ attrs => attrs
  | .accessor _ _ _ attrs => attrs

def slot : Descriptor → Option Nat
  | .data _ slot _ => some slot
  | .accessor .. => none

def isAccessor : Descriptor → Bool
  | .data .. => false
  | .accessor .. => true

end Descriptor

/-- The descriptor list scanned for `key`, first match first. -/
def findIn (ds : List Descriptor) (key : PropKey) : Option Descriptor :=
  ds.find? (fun d => d.key = key)

/-- The in-place write of the redefinition loops: the first record of `key`
becomes `f` of itself, the rest stays. -/
def replaceFirst (key : PropKey) (f : Descriptor → Descriptor) : List Descriptor → List Descriptor
  | [] => []
  | d :: ds => if d.key = key then f d :: ds else d :: replaceFirst key f ds

variable {ds : List Descriptor} {f : Descriptor → Descriptor}

theorem findIn_key {key : PropKey} {d : Descriptor} (h : findIn ds key = some d) : d.key = key := by
  have := List.find?_some h
  simpa using this

theorem findIn_mem {key : PropKey} {d : Descriptor} (h : findIn ds key = some d) :
    d ∈ ds := List.mem_of_find?_eq_some h

theorem findIn_append_singleton (ds : List Descriptor) (d : Descriptor) (key : PropKey) :
    findIn (ds ++ [d]) key =
      (findIn ds key).or (if d.key = key then some d else none) := by
  by_cases hk : d.key = key
  · simp [findIn, List.find?_append, hk]
  · simp [findIn, List.find?_append, hk]

theorem findIn_replaceFirst_self {key : PropKey} {d : Descriptor}
    (hf : ∀ d, d.key = key → (f d).key = key) (h : findIn ds key = some d) :
    findIn (replaceFirst key f ds) key = some (f d) := by
  induction ds with
  | nil => simp [findIn] at h
  | cons x xs ih =>
    by_cases hx : x.key = key
    · have hd : x = d := by simpa [findIn, hx] using h
      subst hd
      simp [replaceFirst, hx, findIn, hf x hx]
    · have hxs : findIn xs key = some d := by simpa [findIn, hx] using h
      simp only [replaceFirst, hx, if_false]
      simpa [findIn, hx] using ih hxs

theorem findIn_replaceFirst_of_ne {key other : PropKey} (hf : ∀ d, d.key = key → (f d).key = key)
    (hne : other ≠ key) :
    findIn (replaceFirst key f ds) other = findIn ds other := by
  induction ds with
  | nil => rfl
  | cons x xs ih =>
    by_cases hx : x.key = key
    · have hfx : (f x).key ≠ other := by
        rw [hf x hx]
        exact Ne.symm hne
      simp [replaceFirst, hx, findIn, hfx, Ne.symm hne]
    · simp only [replaceFirst, hx, if_false]
      by_cases hxo : x.key = other
      · simp [findIn, hxo]
      · simpa [findIn, hxo] using ih

theorem mem_replaceFirst {key : PropKey} {d : Descriptor} (h : d ∈ replaceFirst key f ds) :
    d ∈ ds ∨ ∃ x ∈ ds, x.key = key ∧ findIn ds key = some x ∧ d = f x := by
  induction ds with
  | nil => simp [replaceFirst] at h
  | cons x xs ih =>
    by_cases hx : x.key = key
    · simp only [replaceFirst, hx, if_true, List.mem_cons] at h
      rcases h with rfl | h
      · exact Or.inr ⟨x, by simp, hx, by simp [findIn, hx], rfl⟩
      · exact Or.inl (List.mem_cons_of_mem _ h)
    · simp only [replaceFirst, hx, if_false, List.mem_cons] at h
      rcases h with rfl | h
      · exact Or.inl (by simp)
      · rcases ih h with hin | ⟨y, hy, hyk, hfind, rfl⟩
        · exact Or.inl (List.mem_cons_of_mem _ hin)
        · refine Or.inr ⟨y, List.mem_cons_of_mem _ hy, hyk, ?_, rfl⟩
          simpa [findIn, hx] using hfind

/-- `DESCRIPTORS_INLINE_CAP`. -/
def descriptorsInlineCap : Nat := 8

/-- `indexed`: each key at the first position holding it. -/
def indexFrom : Nat → List Descriptor → List (PropKey × Nat) → List (PropKey × Nat)
  | _, [], index => index
  | i, d :: ds, index =>
    indexFrom (i + 1) ds (if (index.lookup d.key).isSome then index else (d.key, i) :: index)

def indexed (flat : List Descriptor) : List (PropKey × Nat) := indexFrom 0 flat []

/-- Own-property records of one shape, in two tiers. -/
inductive Descriptors where
  | inline (vec : List Descriptor) (small : vec.length ≤ descriptorsInlineCap)
  | outOfLine (slice : List Descriptor) (index : List (PropKey × Nat))
      (built : index = indexed slice)

namespace Descriptors

/-- `Descriptors::default`. -/
def empty : Descriptors := .inline [] (Nat.zero_le _)

def asSlice : Descriptors → List Descriptor
  | .inline vec _ => vec
  | .outOfLine slice _ _ => slice

/-- `Descriptors::push`, spilling out of line past the cap. -/
def push (ds : Descriptors) (d : Descriptor) : Descriptors :=
  match ds with
  | .inline vec _ =>
    if h : vec.length < descriptorsInlineCap then
      .inline (vec ++ [d]) (by rw [List.length_append]; exact h)
    else .outOfLine (vec ++ [d]) (indexed (vec ++ [d])) rfl
  | .outOfLine slice _ _ => .outOfLine (slice ++ [d]) (indexed (slice ++ [d])) rfl

/-- `Descriptors::find`: a scan inline, the position index out of line. -/
def find (ds : Descriptors) (key : PropKey) : Option Descriptor :=
  match ds with
  | .inline vec _ => findIn vec key
  | .outOfLine slice index _ =>
    match index.lookup key with
    | none => none
    | some pos => slice[pos]?.filter (fun d => d.key = key)

/-- The rebuild loop `for d in list { out.push(d) }`. -/
def ofList (list : List Descriptor) : Descriptors := list.foldl push empty

@[simp] theorem asSlice_empty : empty.asSlice = [] := rfl

@[simp] theorem asSlice_push (ds : Descriptors) (d : Descriptor) :
    (ds.push d).asSlice = ds.asSlice ++ [d] := by
  cases ds with
  | inline vec small =>
    simp only [push]
    split <;> rfl
  | outOfLine slice index built => rfl

theorem asSlice_foldl_push (list : List Descriptor) (ds : Descriptors) :
    (list.foldl push ds).asSlice = ds.asSlice ++ list := by
  induction list generalizing ds with
  | nil => simp
  | cons d list ih => simp [ih]

@[simp] theorem asSlice_ofList (list : List Descriptor) : (ofList list).asSlice = list := by
  simp [ofList, asSlice_foldl_push]

theorem lookup_indexFrom (key : PropKey) (flat : List Descriptor) (i : Nat)
    (index : List (PropKey × Nat)) :
    (indexFrom i flat index).lookup key =
      (index.lookup key).or ((flat.findIdx? (fun d => d.key = key)).map (· + i)) := by
  induction flat generalizing i index with
  | nil => simp [indexFrom]
  | cons d ds ih =>
    rw [indexFrom, ih]
    by_cases hd : d.key = key
    · subst hd
      cases hl : index.lookup d.key with
      | none => simp [List.findIdx?_cons]
      | some p => simp [hl]
    · have hne : (key == d.key) = false := by simp [Ne.symm hd]
      have hkeep : ((if (index.lookup d.key).isSome then index else (d.key, i) :: index).lookup key)
          = index.lookup key := by
        split
        · rfl
        · simp [List.lookup_cons, hne]
      rw [hkeep]
      cases hds : ds.findIdx? (fun d => d.key = key) with
      | none => simp [List.findIdx?_cons, hd, hds]
      | some p => simp [List.findIdx?_cons, hd, hds, Nat.add_comm, Nat.add_left_comm]

/-- **The tiers do not show**: a lookup is the first record with the key. -/
theorem find_eq (ds : Descriptors) (key : PropKey) : ds.find key = findIn ds.asSlice key := by
  cases ds with
  | inline vec small => rfl
  | outOfLine slice index built =>
    subst built
    simp only [find, indexed, lookup_indexFrom, asSlice, findIn,
      List.find?_eq_bind_findIdx?_getElem?]
    cases hidx : slice.findIdx? (fun d => d.key = key) with
    | none => simp
    | some pos =>
      have hpos := List.of_findIdx?_eq_some hidx
      cases hget : slice[pos]? with
      | none => simp [hget]
      | some d =>
        simp only [hget] at hpos
        simp [hget, hpos]

end Descriptors

/-! ## §2 Transition tables -/

/-- An edge `(key, attrs) -> child`. -/
abbrev Edge := (PropKey × Attrs) × Nat

/-- `TRANSITIONS_INLINE_CAP`. -/
def transitionsInlineCap : Nat := 8

/-- Child shapes by the added property's key and attributes, in two tiers. -/
inductive Transitions where
  | inline (entries : List Edge) (small : entries.length ≤ transitionsInlineCap)
  | map (entries : List Edge)

/-- Hash-map insertion: the pair's previous edge goes. -/
def insertEdge (entries : List Edge) (pair : PropKey × Attrs) (child : Nat) : List Edge :=
  (pair, child) :: entries.filter (fun e => e.1 ≠ pair)

def replaceEdge (pair : PropKey × Attrs) (child : Nat) : List Edge → List Edge
  | [] => []
  | e :: es => if e.1 = pair then (pair, child) :: es else e :: replaceEdge pair child es

theorem length_replaceEdge (pair : PropKey × Attrs) (child : Nat) (entries : List Edge) :
    (replaceEdge pair child entries).length = entries.length := by
  induction entries with
  | nil => rfl
  | cons e es ih =>
    unfold replaceEdge
    split
    · rfl
    · simp [ih]

namespace Transitions

def empty : Transitions := .inline [] (Nat.zero_le _)

/-- `Transitions::iter`: the recorded edges. -/
def edges : Transitions → List Edge
  | .inline entries _ => entries
  | .map entries => entries

/-- `Transitions::get`. -/
def get (t : Transitions) (key : PropKey) (attrs : Attrs) : Option Nat :=
  t.edges.lookup (key, attrs)

/-- `Transitions::insert`: replaces the pair's edge, else appends, upgrading
to the map past the cap. -/
def insert (t : Transitions) (key : PropKey) (attrs : Attrs) (child : Nat) : Transitions :=
  match t with
  | .inline entries small =>
    if (entries.lookup (key, attrs)).isSome then
      .inline (replaceEdge (key, attrs) child entries) (by rw [length_replaceEdge]; exact small)
    else if h : entries.length < transitionsInlineCap then
      .inline (entries ++ [((key, attrs), child)]) (by rw [List.length_append]; exact h)
    else
      .map (insertEdge (entries.foldl (fun m e => insertEdge m e.1 e.2) []) (key, attrs) child)
  | .map entries => .map (insertEdge entries (key, attrs) child)

/-- `Transitions::retain`. -/
def retain (t : Transitions) (keep : Edge → Bool) : Transitions :=
  match t with
  | .inline entries small =>
    .inline (entries.filter keep) (Nat.le_trans (List.length_filter_le _ _) small)
  | .map entries => .map (entries.filter keep)

theorem get_mem {t : Transitions} {key : PropKey} {attrs : Attrs} {child : Nat}
    (h : t.get key attrs = some child) : ((key, attrs), child) ∈ t.edges := by
  obtain ⟨l₁, l₂, heq, -⟩ := List.lookup_eq_some_iff.mp h
  rw [heq]
  simp

theorem edges_retain (t : Transitions) (keep : Edge → Bool) :
    (t.retain keep).edges = t.edges.filter keep := by
  cases t <;> rfl

theorem mem_foldl_insertEdge {e : Edge} {entries m : List Edge}
    (h : e ∈ entries.foldl (fun m e => insertEdge m e.1 e.2) m) : e ∈ m ∨ e ∈ entries := by
  induction entries generalizing m with
  | nil => exact Or.inl h
  | cons x xs ih =>
    rcases ih h with hin | hin
    · simp only [insertEdge, List.mem_cons] at hin
      rcases hin with rfl | hin
      · exact Or.inr (by simp)
      · exact Or.inl (List.mem_filter.mp hin).1
    · exact Or.inr (List.mem_cons_of_mem _ hin)

theorem mem_replaceEdge {pair : PropKey × Attrs} {child : Nat} {e : Edge} {entries : List Edge}
    (h : e ∈ replaceEdge pair child entries) : e = (pair, child) ∨ e ∈ entries := by
  induction entries with
  | nil => simp [replaceEdge] at h
  | cons x xs ih =>
    unfold replaceEdge at h
    split at h
    case isTrue =>
      rcases List.mem_cons.mp h with rfl | h
      · exact Or.inl rfl
      · exact Or.inr (List.mem_cons_of_mem _ h)
    case isFalse =>
      rcases List.mem_cons.mp h with rfl | h
      · exact Or.inr (by simp)
      · rcases ih h with heq | hin
        · exact Or.inl heq
        · exact Or.inr (List.mem_cons_of_mem _ hin)

theorem mem_edges_insert {t : Transitions} {key : PropKey} {attrs : Attrs} {child : Nat}
    {e : Edge} (h : e ∈ (t.insert key attrs child).edges) :
    e = ((key, attrs), child) ∨ e ∈ t.edges := by
  cases t with
  | inline entries small =>
    simp only [insert] at h
    split at h
    case isTrue => exact mem_replaceEdge h
    case isFalse =>
      split at h
      case isTrue =>
        rcases List.mem_append.mp h with hin | hin
        · exact Or.inr hin
        · exact Or.inl (by simpa using hin)
      case isFalse =>
        simp only [edges, insertEdge, List.mem_cons] at h
        rcases h with heq | hin
        · exact Or.inl heq
        · rcases mem_foldl_insertEdge (List.mem_filter.mp hin).1 with hin | hin
          · cases hin
          · exact Or.inr hin
  | map entries =>
    simp only [insert, edges, insertEdge, List.mem_cons] at h
    rcases h with heq | hin
    · exact Or.inl heq
    · exact Or.inr (List.mem_filter.mp hin).1

end Transitions

/-! ## §3 Shapes -/

/-- A shape node: own descriptors (its ancestors' included), the edges to its
children and the number of slots. -/
structure Shape where
  parent : Option Nat
  transitions : Transitions
  descriptors : Descriptors
  numOwn : Nat

namespace Shape

/-- `Shape::reserved`; `Shape::root` is `reserved 0`. -/
def reserved (n : Nat) : Shape := ⟨none, .empty, .empty, n⟩

/-- `find_descriptor`. -/
def findDescriptor (s : Shape) (key : PropKey) : Option Descriptor := s.descriptors.find key

theorem findDescriptor_eq (s : Shape) (key : PropKey) :
    s.findDescriptor key = findIn s.descriptors.asSlice key := s.descriptors.find_eq key

end Shape

end V12.Heap
