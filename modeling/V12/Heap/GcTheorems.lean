/-
V12.Heap.GcTheorems — what collection and allocation keep, in any order.

The ledger of every space holds after any calls whatever.
-/
import Mathlib.Data.List.Nodup
import V12.Heap.Gc

namespace V12.Heap

open SpaceState

variable {space : Space} {h h' : Heap} {r : Ref} {value : Cell space} {i object : Nat} {op : GcOp}

/-! ## §1 Reading an updated heap -/

theorem spaces_setSpace_self (h : Heap) (space : Space) (s : SpaceState (Cell space)) :
    (h.setSpace space s).spaces space = s := by simp [setSpace]

theorem spaces_setSpace_of_ne (h : Heap) {other : Space} (hne : other ≠ space)
    (s : SpaceState (Cell space)) : (h.setSpace space s).spaces other = h.spaces other := by
  simp [setSpace, hne]

theorem get_none_or_inRange (halive : h.isAlive r = true) :
    h.inRange r = true := decide_eq_true (isAlive_lt halive)

/-! ## §2 The mark is reachability -/

theorem nodup_allRefs (h : Heap) : h.allRefs.Nodup := by
  refine List.nodup_flatMap.mpr ⟨fun space _ => ?_, ?_⟩
  · exact List.nodup_range.map fun i j heq => congrArg Prod.snd heq
  · refine Space.nodup_all.imp fun {a b} hne => ?_
    intro r hra hrb
    obtain ⟨i, -, rfl⟩ := List.mem_map.mp hra
    obtain ⟨j, -, heq⟩ := List.mem_map.mp hrb
    exact hne (congrArg Prod.fst heq).symm

theorem mem_allRefs (h : Heap) (r : Ref) (hr : h.inRange r = true) : r ∈ h.allRefs := by
  refine List.mem_flatMap.mpr ⟨r.1, Space.mem_all r.1, List.mem_map.mpr ⟨r.2, ?_, rfl⟩⟩
  exact List.mem_range.mpr (of_decide_eq_true hr)

/-- **The worklist marks exactly the reachable slots.** -/
theorem mark_iff (h : Heap) (r : Ref) : h.mark r = true ↔ h.Reachable r :=
  Lib.Marker.drain_marked_iff (nodup_allRefs h) (mem_allRefs h) r

/-! ## §3 The ledger after any calls -/

def Ledgers (h : Heap) : Prop := ∀ space, (h.spaces space).Ledger

theorem ledgers_new : Ledgers new := by
  intro space
  cases space with
  | shapes => exact ledger_bornLive _
  | objects => exact ledger_empty
  | strings => exact ledger_empty
  | symbols => exact ledger_empty
  | bigints => exact ledger_empty

theorem Ledgers.setSpace (hl : Ledgers h) {s : SpaceState (Cell space)} (hs : s.Ledger) :
    Ledgers (h.setSpace space s) := by
  intro other
  by_cases hne : other = space
  · subst hne
    rw [spaces_setSpace_self]
    exact hs
  · rw [spaces_setSpace_of_ne h hne]
    exact hl other

theorem alloc_ledgers (hl : Ledgers h) (space : Space) (value : Cell space) :
    Ledgers (h.alloc space value).1 := hl.setSpace (alloc_allocates (hl space) value).ledger

theorem write_ledgers (hl : Ledgers h) (space : Space) (i : Nat) (value : Cell space) :
    Ledgers (h.write space i value) := by
  refine hl.setSpace ?_
  have hs := hl space
  have hlen : ((h.spaces space).slots.set i value).length = (h.spaces space).slots.length :=
    List.length_set
  refine ⟨hs.nodup, hs.mem_free, hs.dead, ?_, fun j hj hlt => hs.behind j hj (by rw [← hlen]; exact hlt)⟩
  simp only [hlen]
  exact hs.pending

theorem pruneSpace_spec (marked : Nat → Bool) (space : Space) (s : SpaceState (Cell space)) :
    (pruneSpace marked space s).slots.length = s.slots.length ∧
      (s.Ledger → (pruneSpace marked space s).Ledger) := by
  cases space with
  | shapes =>
    have hlen : (pruneShapeTransitions marked s).slots.length = s.slots.length :=
      List.length_mapIdx
    refine ⟨hlen, fun hs => ⟨hs.nodup, hs.mem_free, hs.dead, ?_, fun j hj hlt => ?_⟩⟩
    · rw [show (pruneSpace marked .shapes s).slots.length = s.slots.length from hlen]
      exact hs.pending
    · exact hs.behind j hj (hlen ▸ hlt)
  | objects => exact ⟨rfl, id⟩
  | strings => exact ⟨rfl, id⟩
  | symbols => exact ⟨rfl, id⟩
  | bigints => exact ⟨rfl, id⟩

theorem finishSweep_ledgers (hl : Ledgers h) : Ledgers h.finishSweep :=
  fun space => (finishSweep_sweeps (h.spaces space)).ledger (hl space)

theorem forceCollect_ledgers (hl : Ledgers h) : Ledgers h.forceCollect :=
  fun space => publishMark_ledger ((pruneSpace_spec _ space _).2 (finishSweep_ledgers hl space)) _

theorem step_ledgers (hl : Ledgers h) (op : GcOp) : Ledgers (h.step op) := by
  cases op with
  | alloc space value => exact alloc_ledgers hl space value
  | write space i value => exact write_ledgers hl space i value
  | bindShape obj shape =>
    show Ledgers (h.bindShape obj shape)
    unfold bindShape
    split
    · exact write_ledgers hl _ _ _
    · exact hl
  | registerRealmGlobal global =>
    show Ledgers (h.registerRealmGlobal global)
    unfold registerRealmGlobal
    split <;> exact hl
  | addModuleRoot object =>
    show Ledgers (h.addModuleRoot object)
    unfold addModuleRoot
    split <;> exact hl
  | addPinnedRoot object =>
    show Ledgers (h.addPinnedRoot object)
    unfold addPinnedRoot
    split <;> exact hl
  | internString hash text =>
    show Ledgers (h.internString hash text).1
    unfold internString
    split
    · exact hl
    · exact alloc_ledgers hl _ _
  | symbolForKey key =>
    show Ledgers (h.symbolForKey key).1
    unfold symbolForKey
    split
    · exact hl
    · exact alloc_ledgers hl _ _
  | wellKnownSymbol which =>
    show Ledgers (h.wellKnownSymbol which).1
    unfold wellKnownSymbol
    simp only []
    split
    · exact hl
    · exact alloc_ledgers hl _ _
  | sweepStep space => exact hl.setSpace ((sweepStep_sweeps (h.spaces space)).ledger (hl space))
  | forceCollect => exact forceCollect_ledgers hl
  | _ => exact hl

/-! ## §4 Live slots are closed -/

/-- What the contract buys: roots and the cells of live slots name live slots
only. -/
structure Sound (h : Heap) : Prop where
  ledgers : Ledgers h
  roots : ∀ r ∈ h.rootRefs, h.isAlive r = true
  cells : ∀ (space : Space) (i : Nat) (cell : Cell space), h.isAlive (space, i) = true →
    h.get (space, i) = some cell → h.CellLive space cell

theorem Sound.alive_of_reachable (hs : Sound h) (hr : h.Reachable r) :
    h.isAlive r = true := by
  refine Lib.Reach.subset_closed (fun r hmem _ => hs.roots r hmem) (fun u hu v hv _ => ?_) hr
  unfold referents at hv
  split at hv
  case h_1 cell hcell => exact hs.cells u.1 u.2 cell hu hcell v (List.mem_append_left _ hv)
  case h_2 => cases hv

/-- `h'` keeps what is live in `h` as it is; what it adds, cells and roots, names
live slots. -/
structure Grows (h h' : Heap) : Prop where
  alive : ∀ r, h.isAlive r = true → h'.isAlive r = true
  contents : ∀ r, h.isAlive r = true → h'.get r = h.get r
  born : ∀ (space : Space) (i : Nat) (cell : Cell space), h'.isAlive (space, i) = true →
    h'.get (space, i) = some cell → h.isAlive (space, i) = true ∨ h'.CellLive space cell
  roots : ∀ r ∈ h'.rootRefs, r ∈ h.rootRefs ∨ h'.isAlive r = true

theorem CellLive.mono (hgrow : Grows h h') {cell : Cell space} (hc : h.CellLive space cell) :
    h'.CellLive space cell := fun r hr => hgrow.alive r (hc r hr)

theorem Grows.trans {h₁ h₂ h₃ : Heap} (h₁₂ : Grows h₁ h₂) (h₂₃ : Grows h₂ h₃) : Grows h₁ h₃ := by
  refine ⟨fun r hr => h₂₃.alive r (h₁₂.alive r hr),
    fun r hr => (h₂₃.contents r (h₁₂.alive r hr)).trans (h₁₂.contents r hr),
    fun space i cell halive hget => ?_, fun r hr => ?_⟩
  · rcases h₂₃.born space i cell halive hget with hold | hlive
    · rw [h₂₃.contents _ hold] at hget
      rcases h₁₂.born space i cell hold hget with hold | hlive
      · exact Or.inl hold
      · exact Or.inr (hlive.mono h₂₃)
    · exact Or.inr hlive
  · rcases h₂₃.roots r hr with hold | hlive
    · rcases h₁₂.roots r hold with hold | hlive
      · exact Or.inl hold
      · exact Or.inr (h₂₃.alive r hlive)
    · exact Or.inr hlive

theorem Sound.grow (hs : Sound h) (hl : Ledgers h') (hgrow : Grows h h') :
    Sound h' := by
  refine ⟨hl, fun r hr => ?_, fun space i cell halive hget => ?_⟩
  · rcases hgrow.roots r hr with hold | hlive
    · exact hgrow.alive r (hs.roots r hold)
    · exact hlive
  · rcases hgrow.born space i cell halive hget with hold | hlive
    · rw [hgrow.contents _ hold] at hget
      exact (hs.cells space i cell hold hget).mono hgrow
    · exact hlive

/-! ## §5 The calls that only grow the heap -/

theorem Grows.of_roots (hspaces : h'.spaces = h.spaces)
    (hroots : ∀ r ∈ h'.rootRefs, r ∈ h.rootRefs ∨ h.isAlive r = true) : Grows h h' := by
  have halive (r : Ref) : h'.isAlive r = h.isAlive r := by
    unfold isAlive
    rw [hspaces]
  have hget (r : Ref) : h'.get r = h.get r := by
    unfold Heap.get
    rw [hspaces]
  refine ⟨fun r hr => (halive r).trans hr, fun r _ => hget r,
    fun space i cell hr _ => Or.inl ((halive _).symm.trans hr), fun r hr => ?_⟩
  rw [halive]
  exact hroots r hr

theorem Grows.of_space {s : SpaceState (Cell space)}
    (halive : ∀ i, (h.spaces space).isAlive i = true → s.isAlive i = true)
    (hcontents : ∀ i, (h.spaces space).isAlive i = true →
      s.slots[i]? = (h.spaces space).slots[i]?)
    (hborn : ∀ i cell, s.isAlive i = true → s.slots[i]? = some cell →
      (h.spaces space).isAlive i = true ∨ (h.setSpace space s).CellLive space cell) :
    Grows h (h.setSpace space s) := by
  refine ⟨fun r hr => ?_, fun r hr => ?_, fun other i cell hr hget => ?_, fun r hr => Or.inl hr⟩
  · obtain ⟨other, i⟩ := r
    unfold isAlive at hr ⊢
    by_cases hne : other = space
    · subst hne
      rw [spaces_setSpace_self]
      exact halive i hr
    · rw [spaces_setSpace_of_ne h hne]
      exact hr
  · obtain ⟨other, i⟩ := r
    unfold isAlive at hr
    unfold Heap.get
    by_cases hne : other = space
    · subst hne
      rw [spaces_setSpace_self]
      exact hcontents i hr
    · rw [spaces_setSpace_of_ne h hne]
  · unfold isAlive at hr ⊢
    unfold Heap.get at hget
    by_cases hne : other = space
    · subst hne
      rw [spaces_setSpace_self] at hr hget
      exact hborn i cell hr hget
    · rw [spaces_setSpace_of_ne h hne] at hr
      exact Or.inl hr

theorem sweepStep_grows (h : Heap) (space : Space) : Grows h (h.sweepStep space) := by
  have hs := sweepStep_sweeps (h.spaces space)
  refine Grows.of_space (fun i hi => (hs.isAlive i).trans hi) hs.contents fun i cell hi _ => ?_
  exact Or.inl ((hs.isAlive i).symm.trans hi)

theorem alloc_grows (hl : Ledgers h) (hlive : h.CellLive space value) :
    Grows h (h.alloc space value).1 := by
  have ha := alloc_allocates (hl space) value
  have hkeep (i : Nat) (hi : (h.spaces space).isAlive i = true) :
      ((h.spaces space).alloc value).1.isAlive i = true := by
    rw [ha.alive]
    split
    · rfl
    · exact hi
  refine Grows.of_space hkeep ha.contents fun i cell hi hget => ?_
  rw [ha.alive] at hi
  split at hi
  case isTrue heq =>
    -- the slot handed out: its cell names slots live before the call
    rw [heq, ha.slot] at hget
    obtain rfl := Option.some.inj hget
    refine Or.inr fun r hr => ?_
    obtain ⟨other, j⟩ := r
    have hold := hlive (other, j) hr
    unfold isAlive at hold ⊢
    by_cases hne : other = space
    · subst hne
      rw [spaces_setSpace_self]
      exact hkeep j hold
    · rw [spaces_setSpace_of_ne h hne]
      exact hold
  case isFalse => exact Or.inl hi

theorem isAlive_alloc (hl : Ledgers h) (space : Space) (value : Cell space) :
    (h.alloc space value).1.isAlive (space, (h.alloc space value).2) = true := by
  have ha := alloc_allocates (hl space) value
  show ((h.setSpace space _).spaces space).isAlive _ = true
  rw [spaces_setSpace_self, ha.alive]
  exact if_pos rfl

/-- **`alloc` hands out a dead slot.** -/
theorem isAlive_alloc_before (hl : Ledgers h) (space : Space) (value : Cell space) :
    h.isAlive (space, (h.alloc space value).2) = false := (alloc_allocates (hl space) value).dead

theorem alloc_grows_rooted (hl : Ledgers h) (hlive : h.CellLive space value)
    (hspaces : h'.spaces = (h.alloc space value).1.spaces)
    (hroots : ∀ r ∈ h'.rootRefs, r ∈ h.rootRefs ∨ r = (space, (h.alloc space value).2)) :
    Grows h h' := by
  refine (alloc_grows hl hlive).trans (Grows.of_roots hspaces fun r hr => ?_)
  rcases hroots r hr with hold | rfl
  · exact Or.inl hold
  · exact Or.inr (isAlive_alloc hl space value)

theorem mem_rootRefs (h : Heap) (r : Ref) : r ∈ h.rootRefs ↔
    r ∈ trace h.roots ∨ (∃ i ∈ h.shapeRoots, r = (.shapes, i)) ∨
      (∃ i ∈ h.realmGlobals, r = (.objects, i)) ∨ (∃ i ∈ h.moduleRoots, r = (.objects, i)) ∨
      (∃ i ∈ h.pinnedRoots, r = (.objects, i)) ∨
      (∃ bucket ∈ h.internedStrings, ∃ i ∈ bucket.2, r = (.strings, i)) ∨
      (∃ e ∈ h.symbolRegistry, r = (.symbols, e.2)) ∨
      (∃ i, some i ∈ h.wellKnown ∧ r = (.symbols, i)) := by
  simp only [rootRefs, List.mem_append, List.mem_map, List.mem_flatMap, or_assoc, mem_traceHandle,
    eq_comm (a := r)]
  simp

/-- Every root of `h'` is one of `h`, table by table, or satisfies `P`. -/
structure RootsFrom (P : Ref → Prop) (h h' : Heap) : Prop where
  roots : ∀ v ∈ h'.roots, v ∈ h.roots ∨ ∀ r ∈ trace v, P r
  shapeRoots : ∀ i ∈ h'.shapeRoots, i ∈ h.shapeRoots ∨ P (.shapes, i)
  realmGlobals : ∀ i ∈ h'.realmGlobals, i ∈ h.realmGlobals ∨ P (.objects, i)
  moduleRoots : ∀ i ∈ h'.moduleRoots, i ∈ h.moduleRoots ∨ P (.objects, i)
  pinnedRoots : ∀ i ∈ h'.pinnedRoots, i ∈ h.pinnedRoots ∨ P (.objects, i)
  internedStrings : ∀ bucket ∈ h'.internedStrings, ∀ i ∈ bucket.2,
    (∃ old ∈ h.internedStrings, i ∈ old.2) ∨ P (.strings, i)
  symbolRegistry : ∀ e ∈ h'.symbolRegistry, e ∈ h.symbolRegistry ∨ P (.symbols, e.2)
  wellKnown : ∀ i, some i ∈ h'.wellKnown → some i ∈ h.wellKnown ∨ P (.symbols, i)

theorem RootsFrom.refl (P : Ref → Prop) (h : Heap) : RootsFrom P h h where
  roots := fun _ hv => Or.inl hv
  shapeRoots := fun _ hi => Or.inl hi
  realmGlobals := fun _ hi => Or.inl hi
  moduleRoots := fun _ hi => Or.inl hi
  pinnedRoots := fun _ hi => Or.inl hi
  internedStrings := fun bucket hb _ hi => Or.inl ⟨bucket, hb, hi⟩
  symbolRegistry := fun _ he => Or.inl he
  wellKnown := fun _ hi => Or.inl hi

theorem RootsFrom.mem {P : Ref → Prop} (hfrom : RootsFrom P h h') :
    ∀ r ∈ h'.rootRefs, r ∈ h.rootRefs ∨ P r := by
  intro r hr
  rcases (mem_rootRefs h' r).mp hr with hr | ⟨i, hi, rfl⟩ | ⟨i, hi, rfl⟩ | ⟨i, hi, rfl⟩ |
    ⟨i, hi, rfl⟩ | ⟨bucket, hb, i, hi, rfl⟩ | ⟨e, he, rfl⟩ | ⟨i, hi, rfl⟩
  · obtain ⟨v, hv, hrv⟩ := mem_trace_list.mp hr
    rcases hfrom.roots v hv with hold | hnew
    · exact Or.inl ((mem_rootRefs h r).mpr (Or.inl (mem_trace_list.mpr ⟨v, hold, hrv⟩)))
    · exact Or.inr (hnew r hrv)
  · exact (hfrom.shapeRoots i hi).imp_left fun hold => by simp [rootRefs, hold]
  · exact (hfrom.realmGlobals i hi).imp_left fun hold => by simp [rootRefs, hold]
  · exact (hfrom.moduleRoots i hi).imp_left fun hold => by simp [rootRefs, hold]
  · exact (hfrom.pinnedRoots i hi).imp_left fun hold => by simp [rootRefs, hold]
  · refine (hfrom.internedStrings bucket hb i hi).imp_left fun ⟨old, hold, hi⟩ => ?_
    simp only [mem_rootRefs]
    exact Or.inr (Or.inr (Or.inr (Or.inr (Or.inr (Or.inl ⟨old, hold, i, hi, rfl⟩)))))
  · refine (hfrom.symbolRegistry e he).imp_left fun hold => ?_
    simp only [mem_rootRefs]
    exact Or.inr (Or.inr (Or.inr (Or.inr (Or.inr (Or.inr (Or.inl ⟨e, hold, rfl⟩))))))
  · refine (hfrom.wellKnown i hi).imp_left fun hold => ?_
    simp only [mem_rootRefs]
    exact Or.inr (Or.inr (Or.inr (Or.inr (Or.inr (Or.inr (Or.inr ⟨i, hold, rfl⟩))))))

theorem Grows.of_rootsFrom (hspaces : h'.spaces = h.spaces)
    (hfrom : RootsFrom (fun r => h.isAlive r = true) h h') : Grows h h' :=
  .of_roots hspaces hfrom.mem

theorem RootsFrom.same (h : Heap) : RootsFrom (fun r => h.isAlive r = true) h h := .refl _ h

theorem Grows.refl (h : Heap) : Grows h h := .of_rootsFrom rfl (.same h)

theorem addRoot_grows {value : JsValue} (hlive : ∀ r ∈ trace value, h.isAlive r = true) :
    Grows h (h.addRoot value) := by
  refine Grows.of_rootsFrom rfl { RootsFrom.same h with roots := fun v hv => ?_ }
  rcases List.mem_append.mp hv with hv | hv
  · exact Or.inl hv
  · rw [List.mem_singleton.mp hv]
    exact Or.inr hlive

theorem mem_append_live {table : List Nat} {j : Nat} (hlive : h.isAlive (space, j) = true)
    (hi : i ∈ table ++ [j]) :
    i ∈ table ∨ h.isAlive (space, i) = true := by
  rcases List.mem_append.mp hi with hi | hi
  · exact Or.inl hi
  · rw [List.mem_singleton.mp hi]
    exact Or.inr hlive

theorem addShapeRoot_grows {shape : Nat} (hlive : h.isAlive (.shapes, shape) = true) :
    Grows h (h.addShapeRoot shape) :=
  Grows.of_rootsFrom rfl { RootsFrom.same h with
    shapeRoots := fun _ hi => mem_append_live hlive hi }

theorem registerRealmGlobal_grows (hlive : h.isAlive (.objects, object) = true) :
    Grows h (h.registerRealmGlobal object) := by
  unfold registerRealmGlobal
  split
  case isTrue => exact Grows.refl h
  case isFalse =>
    exact Grows.of_rootsFrom rfl { RootsFrom.same h with
      realmGlobals := fun _ hi => mem_append_live hlive hi }

theorem addModuleRoot_grows (hlive : h.isAlive (.objects, object) = true) :
    Grows h (h.addModuleRoot object) := by
  unfold addModuleRoot
  split
  case isTrue => exact Grows.refl h
  case isFalse =>
    exact Grows.of_rootsFrom rfl { RootsFrom.same h with
      moduleRoots := fun _ hi => mem_append_live hlive hi }

theorem addPinnedRoot_grows (hlive : h.isAlive (.objects, object) = true) :
    Grows h (h.addPinnedRoot object) := by
  unfold addPinnedRoot
  split
  case isTrue => exact Grows.refl h
  case isFalse =>
    exact Grows.of_rootsFrom rfl { RootsFrom.same h with
      pinnedRoots := fun _ hi => mem_append_live hlive hi }

theorem FlatText.cellLive (h : Heap) (text : FlatText) (hash : Option (BitVec 32)) :
    h.CellLive .strings ⟨text.storage, hash⟩ := by
  obtain ⟨storage, hflat⟩ := text
  cases storage with
  | latin1 bytes => exact fun r hr => by cases hr
  | utf16 units => exact fun r hr => by cases hr
  | cons left right len => cases hflat
  | sliced parent start len => cases hflat

theorem symbol_cellLive (h : Heap) : h.CellLive .symbols V12Symbol.mk := fun r hr => by cases hr

theorem internString_grows (hl : Ledgers h) (hash : BitVec 32) (text : FlatText) :
    Grows h (h.internString hash text).1 := by
  unfold internString
  split
  case h_1 => exact Grows.refl h
  case h_2 =>
    refine alloc_grows_rooted hl (text.cellLive h _) rfl
      (RootsFrom.mem { RootsFrom.refl (fun r => r = _) h with
        internedStrings := fun bucket hb i hi => ?_ })
    rcases List.mem_cons.mp hb with rfl | hb
    · rcases List.mem_append.mp hi with hi | hi
      · -- an instance of the bucket as it was
        cases hlookup : h.internedStrings.lookup hash.toNat with
        | none => simp [hlookup] at hi
        | some old =>
          rw [hlookup] at hi
          obtain ⟨l₁, l₂, heq, -⟩ := List.lookup_eq_some_iff.mp hlookup
          exact Or.inl ⟨(hash.toNat, old), by rw [heq]; simp, hi⟩
      · rw [List.mem_singleton.mp hi]
        exact Or.inr rfl
    · exact Or.inl ⟨bucket, (List.mem_filter.mp hb).1, hi⟩

theorem symbolForKey_grows (hl : Ledgers h) (key : String) :
    Grows h (h.symbolForKey key).1 := by
  unfold symbolForKey
  split
  case h_1 => exact Grows.refl h
  case h_2 =>
    refine alloc_grows_rooted hl (symbol_cellLive h) rfl
      (RootsFrom.mem { RootsFrom.refl (fun r => r = _) h with
        roots := fun v hv => ?_, symbolRegistry := fun e he => ?_ })
    · rcases List.mem_append.mp hv with hv | hv
      · exact Or.inl hv
      · rw [List.mem_singleton.mp hv]
        exact Or.inr fun r hr => (Option.some.inj (mem_trace_value.mp hr)).symm
    · rcases List.mem_cons.mp he with rfl | he
      · exact Or.inr rfl
      · exact Or.inl he

theorem wellKnownSymbol_grows (hl : Ledgers h) (which : Nat) :
    Grows h (h.wellKnownSymbol which).1 := by
  have hresize {i : Nat} (hi : some i ∈ h.wellKnown ++
      List.replicate (which + 1 - h.wellKnown.length) none) : some i ∈ h.wellKnown := by
    rcases List.mem_append.mp hi with hi | hi
    · exact hi
    · cases (List.mem_replicate.mp hi).2
  unfold wellKnownSymbol
  simp only []
  split
  case h_1 =>
    exact Grows.of_rootsFrom rfl { RootsFrom.same h with
      wellKnown := fun i hi => Or.inl (hresize hi) }
  case h_2 =>
    refine alloc_grows_rooted hl (symbol_cellLive h) rfl
      (RootsFrom.mem { RootsFrom.refl (fun r => r = _) h with wellKnown := fun i hi => ?_ })
    rcases List.mem_or_eq_of_mem_set hi with hi | heq
    · exact Or.inl (hresize hi)
    · rw [Option.some.inj heq]
      exact Or.inr rfl

/-- **Every call but an assignment and a collection only grows the heap.** -/
theorem step_grows (hl : Ledgers h) (hkept : h.Kept op) (htarget : op.target = none)
    (hcollect : op ≠ .forceCollect) : Grows h (h.step op) := by
  cases op with
  | alloc space value => exact alloc_grows hl hkept
  | write space i value => cases htarget
  | bindShape obj shape => cases htarget
  | setRoots values =>
    have hlive (v : JsValue) (hv : v ∈ values) : ∀ r ∈ trace v, h.isAlive r = true :=
      fun r hr => hkept r (mem_trace_list.mpr ⟨v, hv, hr⟩)
    exact Grows.of_rootsFrom rfl { RootsFrom.same h with
      roots := fun v hv => Or.inr (hlive v hv) }
  | addRoot value => exact addRoot_grows hkept
  | removeRoot value =>
    exact Grows.of_rootsFrom rfl { RootsFrom.same h with
      roots := fun v hv => Or.inl (List.mem_filter.mp hv).1 }
  | addShapeRoot shape => exact addShapeRoot_grows hkept
  | registerRealmGlobal global => exact registerRealmGlobal_grows hkept
  | deregisterRealmGlobal global =>
    exact Grows.of_rootsFrom rfl { RootsFrom.same h with
      realmGlobals := fun i hi => Or.inl (List.mem_of_mem_erase hi) }
  | addModuleRoot object => exact addModuleRoot_grows hkept
  | addPinnedRoot object => exact addPinnedRoot_grows hkept
  | internString hash text => exact internString_grows hl hash text
  | symbolForKey key => exact symbolForKey_grows hl key
  | wellKnownSymbol which => exact wellKnownSymbol_grows hl which
  | sweepStep space => exact sweepStep_grows h space
  | forceCollect => exact absurd rfl hcollect

/-! ## §6 Assignments -/

theorem isAlive_write (h : Heap) (space : Space) (i : Nat) (value : Cell space) (r : Ref) :
    (h.write space i value).isAlive r = h.isAlive r := by
  unfold isAlive write
  by_cases hne : r.1 = space
  · subst hne
    rw [spaces_setSpace_self]
    rfl
  · rw [spaces_setSpace_of_ne h hne]

theorem get_write_self (halive : h.isAlive (space, i) = true) (value : Cell space) :
    (h.write space i value).get (space, i) = some value := by
  have hlt : i < (h.spaces space).slots.length := isAlive_lt halive
  unfold Heap.get write
  rw [spaces_setSpace_self]
  exact List.getElem?_set_self hlt

theorem get_write_of_ne (h : Heap) (value : Cell space) (hne : (space, i) ≠ r) :
    (h.write space i value).get r = h.get r := by
  obtain ⟨other, j⟩ := r
  unfold Heap.get write
  by_cases hspace : other = space
  · subst hspace
    have hij : i ≠ j := fun heq => hne (by rw [heq])
    rw [spaces_setSpace_self]
    exact List.getElem?_set_ne hij
  · rw [spaces_setSpace_of_ne h hspace]

theorem write_sound (hs : Sound h) (halive : h.isAlive (space, i) = true)
    (hlive : h.CellLive space value) :
    Sound (h.write space i value) := by
  refine ⟨write_ledgers hs.ledgers space i value, fun r hr => ?_, fun other j cell hj hget r hr => ?_⟩
  · rw [isAlive_write]
    exact hs.roots r hr
  · rw [isAlive_write] at hj ⊢
    by_cases heq : (space, i) = (other, j)
    · obtain ⟨rfl, rfl⟩ := Prod.mk.inj heq
      rw [get_write_self halive] at hget
      obtain rfl := Option.some.inj hget
      exact hlive r hr
    · rw [get_write_of_ne h value heq] at hget
      exact hs.cells other j cell hj hget r hr

theorem bindShape_sound (hs : Sound h) {obj shape : Nat} (hobj : h.isAlive (.objects, obj) = true)
    (hshape : h.isAlive (.shapes, shape) = true) :
    Sound (h.bindShape obj shape) := by
  unfold bindShape
  split
  case h_1 o hget =>
    -- the shape field is not traced, so the object's cell names what it named
    have hlive : h.CellLive .objects ({ o with shape := shape } : JsObject) :=
      hs.cells .objects obj o hobj hget
    have hw := write_sound hs hobj hlive
    refine hw.grow hw.ledgers (addShapeRoot_grows ?_)
    rw [isAlive_write]
    exact hshape
  case h_2 => exact hs

/-! ## §7 Collections -/

def pruneCell (marked : Nat → Bool) : (space : Space) → Cell space → Cell space
  | .shapes, s => pruneEdges marked s
  | .objects, c | .strings, c | .symbols, c | .bigints, c => c

theorem trace_pruneCell (marked : Nat → Bool) (space : Space) (cell : Cell space) :
    trace (pruneCell marked space cell) = trace cell := by
  cases space <;> rfl

theorem weakRefs_pruneCell {marked : Nat → Bool} {cell : Cell space}
    (hr : r ∈ weakRefs space (pruneCell marked space cell)) :
    r.1 = .shapes ∧ marked r.2 = true := by
  cases space with
  | shapes =>
    obtain ⟨e, he, rfl⟩ := List.mem_map.mp hr
    have hkept : e ∈ (cell.transitions.retain fun e => marked e.2).edges := he
    rw [Transitions.edges_retain] at hkept
    exact ⟨rfl, (List.mem_filter.mp hkept).2⟩
  | objects => cases hr
  | strings => cases hr
  | symbols => cases hr
  | bigints => cases hr

theorem isAlive_publish (h : Heap) (marked : Ref → Bool) (r : Ref) :
    (h.publish marked).isAlive r = (h.inRange r && marked r) := by
  show ((pruneSpace _ r.1 (h.spaces r.1)).publishMark _).isAlive r.2 = _
  rw [isAlive_publishMark, (pruneSpace_spec _ r.1 (h.spaces r.1)).1]
  rfl

theorem get_publish {marked : Ref → Bool} (hr : marked r = true) :
    (h.publish marked).get r =
      (h.get r).map (pruneCell (fun i => marked (.shapes, i)) r.1) := by
  obtain ⟨space, i⟩ := r
  cases space with
  | shapes =>
    show ((h.spaces .shapes).slots.mapIdx fun i shape =>
      if marked (.shapes, i) then pruneEdges (fun i => marked (.shapes, i)) shape else shape)[i]? = _
    rw [List.getElem?_mapIdx, hr]
    rfl
  | objects => exact Option.map_id'.symm
  | strings => exact Option.map_id'.symm
  | symbols => exact Option.map_id'.symm
  | bigints => exact Option.map_id'.symm

theorem finishSweep_grows (h : Heap) : Grows h h.finishSweep := by
  have hs (space : Space) := finishSweep_sweeps (h.spaces space)
  exact ⟨fun r hr => ((hs r.1).isAlive r.2).trans hr, fun r hr => (hs r.1).contents r.2 hr,
    fun space i cell hr _ => Or.inl (((hs space).isAlive i).symm.trans hr), fun r hr => Or.inl hr⟩

theorem reachable_finishSweep (hs : Sound h) (r : Ref) :
    h.finishSweep.Reachable r ↔ h.Reachable r := by
  have hgrow := finishSweep_grows h
  have hs' : Sound h.finishSweep := hs.grow (finishSweep_ledgers hs.ledgers) hgrow
  have hrange (u : Ref) : h.finishSweep.inRange u = h.inRange u := by
    unfold inRange
    rw [show (h.finishSweep.spaces u.1).slots.length = (h.spaces u.1).slots.length from
      (finishSweep_sweeps (h.spaces u.1)).length]
  have hrefs {u : Ref} (hu : h.isAlive u = true) : h.finishSweep.referents u = h.referents u := by
    unfold referents
    rw [hgrow.contents u hu]
  constructor
  · refine Lib.Reach.mono (fun v hv hin => ⟨hv, (hrange v).symm.trans hin⟩) fun u hu v hv hin => ?_
    have halive : h.isAlive u = true :=
      ((finishSweep_sweeps (h.spaces u.1)).isAlive u.2).symm.trans (hs'.alive_of_reachable hu)
    rw [hrefs halive] at hv
    exact ⟨hv, (hrange v).symm.trans hin⟩
  · refine Lib.Reach.mono (fun v hv hin => ⟨hv, (hrange v).trans hin⟩) fun u hu v hv hin => ?_
    rw [hrefs (hs.alive_of_reachable hu)]
    exact ⟨hv, (hrange v).trans hin⟩

theorem mark_finishSweep (hs : Sound h) : h.finishSweep.mark = h.mark := by
  funext r
  rw [Bool.eq_iff_iff, mark_iff, mark_iff]
  exact reachable_finishSweep hs r

/-- **After a collection exactly the reachable slots are live.** -/
theorem isAlive_forceCollect (hs : Sound h) (r : Ref) :
    h.forceCollect.isAlive r = true ↔ h.Reachable r := by
  show (h.finishSweep.publish h.finishSweep.mark).isAlive r = true ↔ _
  rw [isAlive_publish, Bool.and_eq_true_iff, mark_iff, reachable_finishSweep hs]
  refine and_iff_right_of_imp fun hr => ?_
  exact Lib.Reach.inDom ((reachable_finishSweep hs r).mpr hr)

/-- **A collection keeps every reachable cell**, its weak edges pruned. -/
theorem get_forceCollect (hs : Sound h) (hr : h.Reachable r) :
    h.forceCollect.get r =
      (h.get r).map (pruneCell (fun i => h.mark (.shapes, i)) r.1) := by
  show (h.finishSweep.publish h.finishSweep.mark).get r = _
  rw [mark_finishSweep hs, get_publish ((mark_iff h r).mpr hr),
    (finishSweep_grows h).contents r (hs.alive_of_reachable hr)]

theorem forceCollect_sound (hs : Sound h) : Sound h.forceCollect := by
  have hin {r : Ref} (hr : h.isAlive r = true) : h.inRange r = true := get_none_or_inRange hr
  refine ⟨forceCollect_ledgers hs.ledgers, fun r hr => ?_, fun space i cell halive hget r hr => ?_⟩
  · rw [isAlive_forceCollect hs]
    exact .root hr (hin (hs.roots r hr))
  · rw [isAlive_forceCollect hs] at halive ⊢
    rw [get_forceCollect hs halive] at hget
    obtain ⟨old, hold, rfl⟩ := Option.map_eq_some_iff.mp hget
    have hlive := hs.cells space i old (hs.alive_of_reachable halive) hold
    rcases List.mem_append.mp hr with hr | hr
    · rw [trace_pruneCell] at hr
      refine .step halive ?_ (hin (hlive r (List.mem_append_left _ hr)))
      unfold referents
      rw [hold]
      exact hr
    · obtain ⟨hspace, hmarked⟩ := weakRefs_pruneCell hr
      obtain ⟨other, j⟩ := r
      obtain rfl : other = .shapes := hspace
      exact (mark_iff h _).mp hmarked

/-! ## §8 Any run -/

theorem sound_new : Sound new := by
  have hshape (i : Nat) : new.isAlive (.shapes, i) = decide (i < 2) :=
    isAlive_bornLive [Shape.reserved 0, Shape.reserved promiseInternalSlots] i
  refine ⟨ledgers_new, fun r hr => ?_, fun space i cell halive hget r hr => ?_⟩
  · have hmem : r ∈ [((.shapes, 0) : Ref), (.shapes, 1)] := hr
    simp only [List.mem_cons, List.not_mem_nil, or_false] at hmem
    rcases hmem with rfl | rfl <;> rfl
  · cases space with
    | shapes =>
      rw [hshape] at halive
      have hlt : i < 2 := of_decide_eq_true halive
      have hcell : [Shape.reserved 0, Shape.reserved promiseInternalSlots][i]? = some cell := hget
      have hbare : ∀ s ∈ [Shape.reserved 0, Shape.reserved promiseInternalSlots],
          trace s ++ weakRefs .shapes s = [] := by
        intro s hs
        simp only [List.mem_cons, List.not_mem_nil, or_false] at hs
        rcases hs with rfl | rfl <;> rfl
      rw [hbare cell (List.mem_of_getElem? hcell)] at hr
      cases hr
    | objects => cases halive
    | strings => cases halive
    | symbols => cases halive
    | bigints => cases halive

/-- **Step rule**: a call under the contract keeps live slots closed. -/
theorem step_sound (hs : Sound h) (hkept : h.Kept op) :
    Sound (h.step op) := by
  by_cases hcollect : op = .forceCollect
  · subst hcollect
    exact forceCollect_sound hs
  · cases htarget : op.target with
    | none => exact hs.grow (step_ledgers hs.ledgers op) (step_grows hs.ledgers hkept htarget hcollect)
    | some r =>
      cases op with
      | write space i value => exact write_sound hs hkept.1 hkept.2
      | bindShape obj shape => exact bindShape_sound hs hkept.1 hkept.2
      | _ => cases htarget

/-- **Run rule.** -/
theorem run_sound {ops : List GcOp} (hkept : Lib.StepsMeet step Kept new ops) :
    Sound (Lib.run step new ops) :=
  Lib.run_invariant (I := Sound) (fun _ _ hs hk => step_sound hs hk) sound_new hkept

/-- What a call leaves in a slot it does not assign to: the cell, less the weak
edges to unreachable shapes if the call collects. -/
def Leaves (h : Heap) (op : GcOp) (r : Ref) : Prop :=
  (h.step op).get r =
    match op with
    | .forceCollect => (h.get r).map (pruneCell (fun i => h.mark (.shapes, i)) r.1)
    | _ => h.get r

theorem step_leaves (hs : Sound h) (hkept : h.Kept op) (hr : h.Reachable r)
    (htarget : op.target ≠ some r) : h.Leaves op r := by
  have halive := hs.alive_of_reachable hr
  cases op with
  | write space i value =>
    exact get_write_of_ne h value fun heq => htarget (congrArg some heq)
  | bindShape obj shape =>
    show (h.bindShape obj shape).get r = h.get r
    unfold bindShape
    split
    · exact get_write_of_ne h _ fun heq => htarget (congrArg some heq)
    · rfl
  | forceCollect => exact get_forceCollect hs hr
  | _ => exact (step_grows hs.ledgers hkept rfl (by rintro ⟨⟩)).contents r halive

/-- **The collector is sound in any run**: whatever the order of allocations,
assignments, root changes, collections and sweep steps, the bookkeeping of
every space holds, reachable slots are live, allocation hands out a slot that
is neither live nor reachable, and the next call leaves every reachable slot
it does not assign to as it was, up to weak edges. -/
theorem collector_sound (ops : List GcOp) (hkept : Lib.StepsMeet step Kept new ops) :
    (∀ space, ((Lib.run step new ops).spaces space).Ledger) ∧
    (∀ r, (Lib.run step new ops).Reachable r → (Lib.run step new ops).isAlive r = true) ∧
    (∀ (space : Space) (value : Cell space),
      (Lib.run step new ops).isAlive (space, ((Lib.run step new ops).alloc space value).2) = false ∧
      ¬ (Lib.run step new ops).Reachable (space, ((Lib.run step new ops).alloc space value).2)) ∧
    (∀ op, (Lib.run step new ops).Kept op → ∀ r, (Lib.run step new ops).Reachable r →
      op.target ≠ some r → (Lib.run step new ops).Leaves op r) := by
  have hs := run_sound hkept
  refine ⟨hs.ledgers, fun r hr => hs.alive_of_reachable hr, fun space value => ?_,
    fun op hop r hr htarget => step_leaves hs hop hr htarget⟩
  have hdead := isAlive_alloc_before hs.ledgers space value
  refine ⟨hdead, fun hr => ?_⟩
  rw [hs.alive_of_reachable hr] at hdead
  cases hdead

/-- An allocation, a root, a collection and an allocation over the swept slot. -/
theorem collector_sound_reuse :
    Lib.StepsMeet step Kept new
        [.alloc .objects default, .forceCollect, .alloc .objects default,
          .addRoot (.object 0), .forceCollect] ∧
      (∀ space, ((Lib.run step new
        [.alloc .objects default, .forceCollect, .alloc .objects default,
          .addRoot (.object 0), .forceCollect]).spaces space).Ledger) := by
  have hkept : Lib.StepsMeet step Kept new
      [.alloc .objects default, .forceCollect, .alloc .objects default,
        .addRoot (.object 0), .forceCollect] := by
    refine ⟨?_, trivial, ?_, ?_, trivial, trivial⟩
    · exact fun r hr => by cases hr
    · exact fun r hr => by cases hr
    · intro r hr
      obtain rfl : r = (.objects, 0) := (Option.some.inj (mem_trace_value.mp hr)).symm
      decide
  exact ⟨hkept, (collector_sound _ hkept).1⟩

/-- The plain text of the purpose fails: a collection edits the pinned root shape,
dropping its edge to a child that nothing else names. -/
theorem forceCollect_edits_reachable_shape :
    ¬ ∀ (ops : List GcOp) (op : GcOp) (r : Ref), Lib.StepsMeet step Kept new ops →
      (Lib.run step new ops).Kept op → (Lib.run step new ops).Reachable r →
      op.target ≠ some r →
      ((Lib.run step new ops).step op).get r = (Lib.run step new ops).get r := by
  intro hall
  let child : Shape := { Shape.reserved 1 with parent := some 0 }
  let parent : Shape :=
    { Shape.reserved 0 with transitions := Transitions.empty.insert (.symbol 0) .default 2 }
  have hsame := hall [.alloc .shapes child, .write .shapes 0 parent] .forceCollect (.shapes, 0)
    ⟨fun r hr => by
        have hmem : r ∈ [((.shapes, 0) : Ref)] := hr
        obtain rfl := List.mem_singleton.mp hmem
        rfl,
      ⟨⟨by decide, fun r hr => by
        have hmem : r ∈ [((.shapes, 2) : Ref)] := hr
        obtain rfl := List.mem_singleton.mp hmem
        decide⟩, trivial⟩⟩ trivial
    (.root (by decide) (by decide)) (by decide)
  have hedges := congrArg (Option.map fun s : Shape => s.transitions.edges.length) hsame
  revert hedges
  decide

/-- **No garbage survives a collection**, and nothing else is lost: whatever kept the contract
before, exactly the reachable slots are live behind it, each with its cell less the edges to
shapes that died. -/
theorem collected_exactly {ops : List GcOp} (hkept : Lib.StepsMeet step Kept new ops) (r : Ref) :
    ((Lib.run step new ops).forceCollect.isAlive r = true ↔ (Lib.run step new ops).Reachable r) ∧
      ((Lib.run step new ops).forceCollect.isAlive r = true →
        (Lib.run step new ops).forceCollect.get r = ((Lib.run step new ops).get r).map
          (pruneCell (fun i => (Lib.run step new ops).mark (.shapes, i)) r.1)) := by
  have hs := run_sound hkept
  have halive := isAlive_forceCollect hs r
  exact ⟨halive, fun h => get_forceCollect hs (halive.mp h)⟩

/-- A rooted object with its prototype, and the pinned root shape with an edge to a child that
dies. -/
theorem collected_exactly_pruned :
    let parent : Shape :=
      { Shape.reserved 0 with transitions := Transitions.empty.insert (.symbol 0) .default 2 }
    let s := Lib.run step new [.alloc .objects default,
      .alloc .objects { (default : Cell .objects) with prototype := some 0 }, .addRoot (.object 1),
      .alloc .shapes { Shape.reserved 1 with parent := some 0 }, .write .shapes 0 parent]
    s.Reachable (.objects, 0) ∧ ¬ s.Reachable (.shapes, 2) ∧
      (s.forceCollect.get (.shapes, 0)).map (fun c : Shape => c.transitions.edges.length) =
        some 0 := by
  intro parent s
  have hkept : Lib.StepsMeet step Kept new [.alloc .objects default,
      .alloc .objects { (default : Cell .objects) with prototype := some 0 }, .addRoot (.object 1),
      .alloc .shapes { Shape.reserved 1 with parent := some 0 }, .write .shapes 0 parent] := by
    refine ⟨fun r hr => ?_, fun r hr => ?_, fun r hr => ?_, fun r hr => ?_,
      ⟨by decide, fun r hr => ?_⟩, trivial⟩
    · cases hr
    · have hmem : r ∈ [((.objects, 0) : Ref)] := hr
      obtain rfl := List.mem_singleton.mp hmem
      decide
    · obtain rfl : r = (.objects, 1) := (Option.some.inj (mem_trace_value.mp hr)).symm
      decide
    · have hmem : r ∈ [((.shapes, 0) : Ref)] := hr
      obtain rfl := List.mem_singleton.mp hmem
      decide
    · have hmem : r ∈ [((.shapes, 2) : Ref)] := hr
      obtain rfl := List.mem_singleton.mp hmem
      decide
  refine ⟨(collected_exactly hkept _).1.mp (by decide), fun hr => ?_, ?_⟩
  · exact absurd ((collected_exactly hkept _).1.mpr hr) (by decide)
  · rw [(collected_exactly hkept (.shapes, 0)).2 (by decide)]
    decide

end V12.Heap
