/-
V12.Interp.RootsTheorems — when the root set of a safepoint is complete.

`gcProtect` publishes exactly the republished kinds of holders. While each
safepoint is covered, every held handle stays live and the cached strings and
shape stay in their tables (`Safe`), so the collector's own theorem applies:
`rootsComplete_iff_covered` for one state, `roots_complete_iff` for a run.
-/
import V12.Heap.GcTheorems
import V12.Lib.Assoc
import V12.Interp.Roots

namespace V12.Roots

open V12.Heap

variable {h : Heap} {r : Ref}

namespace Interp

/-! ## §1 What is published -/

theorem trace_flatMap {α β : Type} [Trace β] (items : List α) (f : α → List β) :
    trace (items.flatMap f) = items.flatMap fun x => trace (f x) := List.flatMap_assoc

theorem trace_append {α : Type} [Trace α] (xs ys : List α) :
    trace (xs ++ ys) = trace xs ++ trace ys := List.flatMap_append

theorem trace_map_object (h : Option Nat) :
    trace (h.map JsValue.object).toList = traceHandle .objects h := by
  cases h <;> rfl

theorem trace_map_symbol (h : Option Nat) :
    trace (h.map JsValue.symbol).toList = traceHandle .symbols h := by
  cases h <;> rfl

theorem mem_holders {p : Holder → Bool} {i : Interp} {r : Ref} :
    r ∈ (Holder.all.filter p).flatMap i.refs ↔ ∃ k, p k = true ∧ r ∈ i.refs k := by
  simp only [List.mem_flatMap, List.mem_filter]
  constructor
  · rintro ⟨k, ⟨-, hp⟩, hr⟩
    exact ⟨k, hp, hr⟩
  · rintro ⟨k, hp, hr⟩
    exact ⟨k, ⟨Holder.mem_all k, hp⟩, hr⟩

/-- **`gc_protect` publishes the republished kinds, all of each.** -/
theorem mem_trace_published (i : Interp) (r : Ref) :
    r ∈ trace i.published ↔ ∃ k, Machine.Republished k = true ∧ r ∈ i.refs k := by
  have hpair (v w : JsValue) : trace [v, w] = trace v ++ trace w := by
    show trace v ++ (trace w ++ []) = _
    rw [List.append_nil]
  have htriple (v w x : JsValue) : trace [v, w, x] = trace v ++ (trace w ++ trace x) := by
    show trace v ++ (trace w ++ (trace x ++ [])) = _
    rw [List.append_nil]
  have hobject (h : Nat) : trace (JsValue.object h) = [(.objects, h)] := rfl
  have hpersistent : trace (i.persistent.flatMap Option.toList) = trace i.persistent := trace_flatMap _ _
  have hpublished : trace i.published =
      i.refs .register ++
      i.frames.flatMap (fun f => traceHandle .objects f.env ++ traceHandle .objects f.generator) ++
      i.refs .pendingAwait ++ i.refs .pendingSettlement ++ i.refs .pendingAdoption ++
      i.refs .topResult ++ i.refs .scratchRoot ++ traceHandle .symbols i.symbolIterator ++
      traceHandle .symbols i.symbolAsyncIterator ++ i.refs .persistent := by
    simp only [published, trace_append, trace_flatMap, trace_map_object, trace_map_symbol, hpair,
      htriple, hobject, hpersistent, refs, List.singleton_append]
    rfl
  have hframes : r ∈ i.frames.flatMap (fun f => traceHandle .objects f.env ++
      traceHandle .objects f.generator) ↔ r ∈ i.refs .frameEnv ∨ r ∈ i.refs .frameGenerator := by
    simp only [refs, List.mem_flatMap, List.mem_append, ← exists_or, ← and_or_left]
  rw [hpublished]
  simp only [List.mem_append, hframes]
  constructor
  · rintro (((((((((h | (h | h)) | h) | h) | h) | h) | h) | h) | h) | h)
    · exact ⟨.register, rfl, h⟩
    · exact ⟨.frameEnv, rfl, h⟩
    · exact ⟨.frameGenerator, rfl, h⟩
    · exact ⟨.pendingAwait, rfl, h⟩
    · exact ⟨.pendingSettlement, rfl, h⟩
    · exact ⟨.pendingAdoption, rfl, h⟩
    · exact ⟨.topResult, rfl, h⟩
    · exact ⟨.scratchRoot, rfl, h⟩
    · exact ⟨.iteratorSymbol, rfl, List.mem_append_left _ h⟩
    · exact ⟨.iteratorSymbol, rfl, List.mem_append_right _ h⟩
    · exact ⟨.persistent, rfl, h⟩
  · rintro ⟨k, hk, h⟩
    cases k with
    | register => simp only [h, true_or]
    | iteratorSymbol =>
      rcases List.mem_append.mp h with h | h
      · simp only [h, true_or, or_true]
      · simp only [h, true_or, or_true]
    | persistent => simp only [h, or_true]
    | frameDisplay | frameNewTarget | frameArguments | mainEnv | evalContext | speciesSymbol
    | cachedString | lengthShape => cases hk
    | _ => simp only [h, true_or, or_true]

end Interp

/-! ## §2 The heap under the steps -/

/-- The strings interned under `hash`. -/
def bucket (h : Heap) (hash : Nat) : List Nat := (h.internedStrings.lookup hash).getD []

/-- Tables no step takes an entry from. -/
structure TablesGrow (h h' : Heap) : Prop where
  interned : ∀ hash, bucket h hash ⊆ bucket h' hash
  shapes : h.shapeRoots ⊆ h'.shapeRoots

theorem TablesGrow.of_eq {h' : Heap} (hinterned : h'.internedStrings = h.internedStrings)
    (hshapes : h'.shapeRoots = h.shapeRoots) : TablesGrow h h' := by
  refine ⟨fun hash s hs => ?_, fun s hs => ?_⟩
  · unfold bucket at hs ⊢
    rw [hinterned]
    exact hs
  · rw [hshapes]
    exact hs

theorem TablesGrow.trans {h₁ h₂ h₃ : Heap} (h₁₂ : TablesGrow h₁ h₂) (h₂₃ : TablesGrow h₂ h₃) :
    TablesGrow h₁ h₃ :=
  ⟨fun hash _ hs => h₂₃.interned hash (h₁₂.interned hash hs), fun _ hs => h₂₃.shapes (h₁₂.shapes hs)⟩

theorem bucket_rooted {hash s : Nat} (hs : s ∈ bucket h hash) :
    (.strings, s) ∈ h.rootRefs := by
  unfold bucket at hs
  cases hlook : h.internedStrings.lookup hash with
  | none =>
    rw [hlook] at hs
    cases hs
  | some strings =>
    rw [hlook] at hs
    refine (Heap.mem_rootRefs _ _).mpr (Or.inr (Or.inr (Or.inr (Or.inr (Or.inr (Or.inl ?_))))))
    exact ⟨(hash, strings), Lib.mem_of_lookup hlook, s, hs, rfl⟩

theorem internString_tables (h : Heap) (hash : BitVec 32) (text : FlatText) :
    TablesGrow h (h.internString hash text).1 ∧
      (h.internString hash text).2 ∈ bucket (h.internString hash text).1 hash.toNat := by
  unfold Heap.internString
  split
  case h_1 existing hfound =>
    exact ⟨.of_eq rfl rfl, List.mem_of_find?_eq_some hfound⟩
  case h_2 =>
    have hself : bucket { (h.alloc .strings ⟨text.storage, some hash⟩).1 with
        internedStrings := (hash.toNat, bucket h hash.toNat ++ [(h.alloc .strings
          ⟨text.storage, some hash⟩).2]) ::
            h.internedStrings.filter (fun e => e.1 ≠ hash.toNat) } hash.toNat =
        bucket h hash.toNat ++ [(h.alloc .strings ⟨text.storage, some hash⟩).2] := by
      simp [bucket]
    refine ⟨⟨fun k s hs => ?_, fun s hs => hs⟩, ?_⟩
    · by_cases hk : k = hash.toNat
      · subst hk
        exact hself.symm ▸ List.mem_append_left _ hs
      · have hne : (k == hash.toNat) = false := by simp [hk]
        show s ∈ (((hash.toNat, _) :: _ : List (Nat × List Nat)).lookup k).getD []
        rw [List.lookup_cons, hne]
        simp only
        rw [Lib.lookup_filter_ne, if_neg hk]
        exact hs
    · exact hself.symm ▸ List.mem_append_right _ (List.mem_singleton_self _)

theorem step_tables (h : Heap) (op : GcOp) : TablesGrow h (h.step op) := by
  cases op with
  | internString hash text => exact (internString_tables h hash text).1
  | addShapeRoot shape => exact ⟨fun _ _ hs => hs, fun s hs => List.mem_append_left _ hs⟩
  | bindShape obj shape =>
    show TablesGrow h (h.bindShape obj shape)
    unfold Heap.bindShape
    split
    · exact ⟨fun _ _ hs => hs, fun s hs => List.mem_append_left _ hs⟩
    · exact .of_eq rfl rfl
  | registerRealmGlobal global =>
    show TablesGrow h (h.registerRealmGlobal global)
    unfold Heap.registerRealmGlobal
    split <;> exact .of_eq rfl rfl
  | addModuleRoot object =>
    show TablesGrow h (h.addModuleRoot object)
    unfold Heap.addModuleRoot
    split <;> exact .of_eq rfl rfl
  | addPinnedRoot object =>
    show TablesGrow h (h.addPinnedRoot object)
    unfold Heap.addPinnedRoot
    split <;> exact .of_eq rfl rfl
  | symbolForKey key =>
    show TablesGrow h (h.symbolForKey key).1
    unfold Heap.symbolForKey
    split <;> exact .of_eq rfl rfl
  | wellKnownSymbol which =>
    show TablesGrow h (h.wellKnownSymbol which).1
    unfold Heap.wellKnownSymbol
    dsimp only
    split <;> exact .of_eq rfl rfl
  | _ => exact .of_eq rfl rfl

theorem step_alive (hs : Sound h) {op : GcOp} (hkept : h.Kept op) (hcollect : op ≠ .forceCollect)
    (hr : h.isAlive r = true) :
    (h.step op).isAlive r = true := by
  cases htarget : op.target with
  | none => exact (step_grows hs.ledgers hkept htarget hcollect).alive r hr
  | some target =>
    cases op with
    | write space i value => exact (isAlive_write h space i value r).trans hr
    | bindShape obj shape =>
      show (h.bindShape obj shape).isAlive r = true
      unfold Heap.bindShape
      split
      · exact (isAlive_write h .objects obj _ r).trans hr
      · exact hr
    | _ => cases htarget

theorem reachable_forceCollect (hs : Sound h) (hr : h.Reachable r) :
    h.forceCollect.Reachable r := by
  have halive {u : Ref} (hu : h.Reachable u) : h.forceCollect.inRange u = true :=
    get_none_or_inRange ((isAlive_forceCollect hs u).mpr hu)
  induction hr with
  | root hmem hdom => exact .root hmem (halive (.root hmem hdom))
  | @step u v hu hmem hdom ih =>
    refine .step ih ?_ (halive (.step hu hmem hdom))
    unfold Heap.referents at hmem ⊢
    rw [get_forceCollect hs hu]
    cases hget : h.get u with
    | none =>
      rw [hget] at hmem
      cases hmem
    | some cell =>
      rw [hget] at hmem
      show v ∈ trace (pruneCell _ u.1 cell)
      rw [trace_pruneCell]
      exact hmem

/-! ## §3 What covered safepoints keep -/

/-- The cached strings and shape of an interpreter are in their tables. -/
structure Pinned (h : Heap) (i : Interp) : Prop where
  strings : ∀ s ∈ i.cachedStrings, ∃ hash, s ∈ bucket h hash
  shape : ∀ s, i.lengthShape = some s → s ∈ h.shapeRoots

/-- `i` caches nothing that `j` does not. -/
structure CachesOf (i j : Interp) : Prop where
  strings : i.cachedStrings ⊆ j.cachedStrings
  shape : i.lengthShape = none ∨ i.lengthShape = j.lengthShape

theorem CachesOf.refl (i : Interp) : CachesOf i i := ⟨fun _ hs => hs, Or.inr rfl⟩

theorem Pinned.mono {h' : Heap} {i j : Interp} (hp : Pinned h j) (hgrow : TablesGrow h h')
    (hcaches : CachesOf i j) : Pinned h' i := by
  refine ⟨fun s hs => ?_, fun s hs => ?_⟩
  · obtain ⟨hash, hmem⟩ := hp.strings s (hcaches.strings hs)
    exact ⟨hash, hgrow.interned hash hmem⟩
  · rcases hcaches.shape with hnone | hsame
    · rw [hnone] at hs
      cases hs
    · exact hgrow.shapes (hp.shape s (hsame ▸ hs))

theorem Pinned.mem_rootRefs {i : Interp} (hp : Pinned h i) {k : Holder}
    (hk : Machine.Permanent k = true) (hr : r ∈ i.refs k) :
    r ∈ ({ h with roots := [] } : Heap).rootRefs := by
  cases k with
  | cachedString =>
    obtain ⟨s, hs, rfl⟩ := List.mem_map.mp hr
    obtain ⟨hash, hmem⟩ := hp.strings s hs
    have hbucket : s ∈ bucket { h with roots := [] } hash := hmem
    exact bucket_rooted hbucket
  | lengthShape =>
    obtain ⟨s, hs, rfl⟩ := mem_traceHandle.mp hr
    exact (Heap.mem_rootRefs _ _).mpr (Or.inr (Or.inl ⟨s, hp.shape s hs, rfl⟩))
  | _ => cases hk

namespace Machine

variable {m : Machine} {r : Ref} {h : Heap} {i : Interp} {k : Holder} {val : JsValue}

theorem mem_held : r ∈ m.held ↔
    (∃ i ∈ m.interp :: m.outer, ∃ k, r ∈ i.refs k) ∨ r ∈ m.jobs ∨ r ∈ m.locals := by
  unfold held
  simp only [List.mem_append, List.mem_flatMap, or_assoc]
  refine or_congr_left (exists_congr fun i => and_congr_right fun _ => ?_)
  constructor
  · rintro ⟨k, -, hr⟩
    exact ⟨k, hr⟩
  · rintro ⟨k, hr⟩
    exact ⟨k, Holder.mem_all k, hr⟩

/-- **The invariant**: the heap is sound, no held handle dangles, and what is
cached is pinned. -/
structure Safe (m : Machine) : Prop where
  sound : Sound m.heap
  live : ∀ r ∈ m.held, m.heap.isAlive r = true
  pinned : ∀ i ∈ m.interp :: m.outer, Pinned m.heap i

theorem Safe.alive_of_canName (hs : Safe m) (hr : m.CanName r) :
    m.heap.isAlive r = true := by
  rcases hr with hr | hr
  case inr => exact hr
  refine Lib.Reach.subset_closed (S := fun u => m.heap.isAlive u = true) (fun u hu _ => ?_)
    (fun u hu v hv _ => ?_) hr
  · rcases List.mem_append.mp hu with hheld | hroot
    · exact hs.live u hheld
    · exact hs.sound.roots u hroot
  · unfold follows at hv
    split at hv
    case h_1 cell hcell => exact hs.sound.cells u.1 u.2 cell hu hcell v hv
    case h_2 => cases hv

/-- What a step does to the heap: nothing dies, and the tables grow. -/
structure HeapStep (h h' : Heap) : Prop where
  sound : Sound h'
  alive : ∀ r, h.isAlive r = true → h'.isAlive r = true
  tables : TablesGrow h h'

theorem HeapStep.refl (hs : Sound h) : HeapStep h h :=
  ⟨hs, fun _ hr => hr, .of_eq rfl rfl⟩

theorem HeapStep.of_step (hs : Sound h) (op : GcOp) (hkept : h.Kept op)
    (hcollect : op ≠ .forceCollect) : HeapStep h (h.step op) :=
  ⟨step_sound hs hkept, fun _ hr => step_alive hs hkept hcollect hr, step_tables h op⟩

theorem HeapStep.trans {h₁ h₂ h₃ : Heap} (h₁₂ : HeapStep h₁ h₂) (h₂₃ : HeapStep h₂ h₃) :
    HeapStep h₁ h₃ :=
  ⟨h₂₃.sound, fun r hr => h₂₃.alive r (h₁₂.alive r hr), h₁₂.tables.trans h₂₃.tables⟩

/-- **Update rule**: the heap takes a step, and what is held and cached then was
held and cached before, or is live and pinned now. -/
theorem Safe.update {m' : Machine} (hs : Safe m) (hheap : HeapStep m.heap m'.heap)
    (hheld : ∀ r ∈ m'.held, r ∈ m.held ∨ m'.heap.isAlive r = true)
    (hcaches : ∀ i ∈ m'.interp :: m'.outer,
      (∃ j ∈ m.interp :: m.outer, CachesOf i j) ∨ Pinned m'.heap i) : Safe m' := by
  refine ⟨hheap.sound, fun r hr => ?_, fun i hi => ?_⟩
  · rcases hheld r hr with hold | hlive
    · exact hheap.alive r (hs.live r hold)
    · exact hlive
  · rcases hcaches i hi with ⟨j, hj, hof⟩ | hp
    · exact (hs.pinned j hj).mono hheap.tables hof
    · exact hp

theorem Safe.update_interp (hs : Safe m) {h' : Heap} {i' : Interp} (hheap : HeapStep m.heap h')
    (hrefs : ∀ k, ∀ r ∈ i'.refs k, r ∈ m.interp.refs k ∨ h'.isAlive r = true)
    (hcaches : CachesOf i' m.interp ∨ Pinned h' i') :
    Safe { m with heap := h', interp := i' } := by
  refine hs.update hheap (fun r hr => ?_) (fun i hi => ?_)
  · rcases mem_held.mp hr with ⟨i, hi, k, hk⟩ | hother
    · rcases List.mem_cons.mp hi with rfl | hi
      · refine (hrefs k r hk).imp_left fun hold => ?_
        exact mem_held.mpr (Or.inl ⟨m.interp, List.mem_cons_self, k, hold⟩)
      · exact Or.inl (mem_held.mpr (Or.inl ⟨i, List.mem_cons_of_mem _ hi, k, hk⟩))
    · exact Or.inl (mem_held.mpr (Or.inr hother))
  · rcases List.mem_cons.mp hi with rfl | hi
    · exact hcaches.imp_left fun hof => ⟨m.interp, List.mem_cons_self, hof⟩
    · exact Or.inl ⟨i, List.mem_cons_of_mem _ hi, .refl i⟩

theorem kept_of_given {op : GcOp} (hcollects : ¬ Collects op)
    (hlive : ∀ r ∈ given op, h.isAlive r = true) : h.Kept op := by
  cases op with
  | alloc space value => exact hlive
  | write space i value =>
    exact ⟨hlive _ List.mem_cons_self, fun r hr => hlive r (List.mem_cons_of_mem _ hr)⟩
  | addRoot value => exact hlive
  | addShapeRoot shape => exact hlive _ (List.mem_singleton_self _)
  | bindShape obj shape => exact ⟨hlive _ List.mem_cons_self, hlive _ (by simp [given])⟩
  | registerRealmGlobal global => exact hlive _ (List.mem_singleton_self _)
  | addModuleRoot object => exact hlive _ (List.mem_singleton_self _)
  | addPinnedRoot object => exact hlive _ (List.mem_singleton_self _)
  | setRoots values => exact absurd trivial hcollects
  | forceCollect => exact absurd trivial hcollects
  | removeRoot _ | deregisterRealmGlobal _ | internString _ _ | symbolForKey _ | wellKnownSymbol _
  | sweepStep _ => trivial

theorem symbolForKey_mem (h : Heap) (key : String) :
    (key, (h.symbolForKey key).2) ∈ (h.symbolForKey key).1.symbolRegistry := by
  unfold Heap.symbolForKey
  split
  case h_1 existing hlook => exact Lib.mem_of_lookup hlook
  case h_2 => exact List.mem_cons_self

theorem wellKnownSymbol_mem (h : Heap) (which : Nat) :
    some (h.wellKnownSymbol which).2 ∈ (h.wellKnownSymbol which).1.wellKnown := by
  unfold Heap.wellKnownSymbol
  dsimp only
  split
  case h_1 existing hsome => exact List.mem_of_getElem? (Option.join_eq_some_iff.mp hsome)
  case h_2 => exact List.mem_set (by simp; omega) _

theorem isAlive_returned (hs : Sound h) (op : GcOp) (hr : r ∈ returned h op) :
    (h.step op).isAlive r = true := by
  cases op with
  | alloc space value =>
    obtain rfl := List.mem_singleton.mp hr
    exact isAlive_alloc hs.ledgers space value
  | internString hash text =>
    obtain rfl := List.mem_singleton.mp hr
    have hsound : Sound (h.step (.internString hash text)) := step_sound hs trivial
    exact hsound.roots _
      (bucket_rooted (internString_tables h hash text).2)
  | symbolForKey key =>
    obtain rfl := List.mem_singleton.mp hr
    have hsound : Sound (h.step (.symbolForKey key)) := step_sound hs trivial
    refine hsound.roots _ ((Heap.mem_rootRefs _ _).mpr ?_)
    exact Or.inr (Or.inr (Or.inr (Or.inr (Or.inr (Or.inr (Or.inl ⟨_, symbolForKey_mem h key, rfl⟩))))))
  | wellKnownSymbol which =>
    obtain rfl := List.mem_singleton.mp hr
    have hsound : Sound (h.step (.wellKnownSymbol which)) := step_sound hs trivial
    refine hsound.roots _
      ((Heap.mem_rootRefs _ _).mpr ?_)
    exact Or.inr (Or.inr (Or.inr (Or.inr (Or.inr (Or.inr (Or.inr ⟨_, wellKnownSymbol_mem h which, rfl⟩))))))
  | _ => cases hr

theorem safe_call (hs : Safe m) {op : GcOp} (hcollects : ¬ Collects op)
    (hgiven : ∀ r ∈ given op, m.CanName r) : Safe (m.call op) := by
  have hkept : m.heap.Kept op :=
    kept_of_given hcollects fun r hr => hs.alive_of_canName (hgiven r hr)
  have hnot : op ≠ .forceCollect := fun heq => hcollects (heq ▸ trivial)
  refine hs.update (.of_step hs.sound op hkept hnot) (fun r hr => ?_) (fun i hi => Or.inl ⟨i, hi, .refl i⟩)
  rcases mem_held.mp hr with hi | hjob | hlocal
  · exact Or.inl (mem_held.mpr (Or.inl hi))
  · exact Or.inl (mem_held.mpr (Or.inr (Or.inl hjob)))
  · rcases List.mem_append.mp hlocal with hret | hold
    · exact Or.inr (isAlive_returned hs.sound op hret)
    · exact Or.inl (mem_held.mpr (Or.inr (Or.inr hold)))

theorem safe_cacheString (hs : Safe m) (hash : BitVec 32) (text : FlatText) :
    Safe (m.cacheString hash text) := by
  have hheap : HeapStep m.heap (m.heap.internString hash text).1 :=
    .of_step hs.sound (.internString hash text) trivial (by rintro ⟨⟩)
  obtain ⟨htables, hbucket⟩ := internString_tables m.heap hash text
  refine hs.update_interp hheap (fun k r hr => ?_) (Or.inr ⟨fun s hmem => ?_, fun s hmem => ?_⟩)
  · cases k with
    | cachedString =>
      rcases List.mem_cons.mp hr with rfl | hr
      · exact Or.inr (isAlive_returned hs.sound (.internString hash text) (List.mem_singleton_self _))
      · exact Or.inl hr
    | _ => exact Or.inl hr
  · rcases List.mem_cons.mp hmem with rfl | hmem
    · exact ⟨hash.toNat, hbucket⟩
    · exact ((hs.pinned m.interp List.mem_cons_self).mono htables (.refl _)).strings s hmem
  · exact ((hs.pinned m.interp List.mem_cons_self).mono htables (.refl _)).shape s hmem

theorem safe_cacheLengthShape (hs : Safe m) {shape : Nat} (hname : m.CanName (.shapes, shape)) :
    Safe (m.cacheLengthShape shape) := by
  have hlive : m.heap.isAlive (.shapes, shape) = true := hs.alive_of_canName hname
  have hheap : HeapStep m.heap (m.heap.addShapeRoot shape) :=
    .of_step hs.sound (.addShapeRoot shape) hlive (by rintro ⟨⟩)
  refine hs.update_interp hheap (fun k r hr => ?_) (Or.inr ⟨fun s hmem => ?_, fun s hmem => ?_⟩)
  · cases k with
    | lengthShape =>
      obtain rfl := List.mem_singleton.mp hr
      exact Or.inr (hheap.alive _ hlive)
    | _ => exact Or.inl hr
  · exact ((hs.pinned m.interp List.mem_cons_self).mono hheap.tables (.refl _)).strings s hmem
  · obtain rfl := Option.some.inj hmem
    exact List.mem_append_right _ (List.mem_singleton_self _)

theorem refs_pushFrame {frame : Frame} {window : List JsValue}
    (hr : r ∈ Interp.refs { i with stack := i.stack ++ window, frames := frame :: i.frames } k) :
    r ∈ i.refs k ∨ r ∈ frame.refs ++ trace window := by
  cases k with
  | register =>
    rw [Interp.refs, Interp.trace_append] at hr
    exact (List.mem_append.mp hr).imp_right (List.mem_append_right _)
  | frameEnv | frameGenerator | frameDisplay | frameNewTarget | frameArguments =>
    rcases List.mem_append.mp hr with hr | hr
    · exact Or.inr (List.mem_append_left _ (by simp only [Frame.refs, List.mem_append, hr, true_or, or_true]))
    · exact Or.inl hr
  | _ => exact Or.inl hr

theorem refs_popFrame {f : Frame} {fs : List Frame} (hframes : i.frames = f :: fs) {base : Nat}
    (hr : r ∈ (({ i with frames := fs } : Interp).leaveWindow base).refs k) : r ∈ i.refs k := by
  cases k with
  | register =>
    obtain ⟨v, hv, hrv⟩ := mem_trace_list.mp hr
    exact mem_trace_list.mpr ⟨v, List.mem_of_mem_take hv, hrv⟩
  | frameEnv | frameGenerator | frameDisplay | frameNewTarget | frameArguments =>
    simp only [Interp.refs, hframes]
    exact List.mem_append_right _ hr
  | evalContext =>
    obtain ⟨e, he, hre⟩ := List.mem_flatMap.mp hr
    refine List.mem_flatMap.mpr ⟨e, ?_, hre⟩
    rcases List.mem_append.mp he with he | he
    · exact List.mem_append_left _ he
    · exact List.mem_append_right _ (List.mem_filter.mp he).1
  | _ => exact hr

theorem safe_pushFrame (hs : Safe m) {frame : Frame} {window : List JsValue}
    (hname : ∀ r ∈ frame.refs ++ trace window, m.CanName r) : Safe (m.pushFrame frame window) := by
  refine hs.update_interp (.refl hs.sound) (fun k r hr => ?_) (Or.inl ⟨fun _ h => h, Or.inr rfl⟩)
  exact (refs_pushFrame hr).imp_right fun hnew => hs.alive_of_canName (hname r hnew)

theorem dropFrameArguments_step (hs : Sound h) (frame : Frame) :
    HeapStep h (dropFrameArguments h frame) := by
  unfold dropFrameArguments
  split
  case h_1 a _ => exact .of_step hs (.removeRoot a) trivial (by rintro ⟨⟩)
  case h_2 => exact .refl hs

theorem safe_popFrame (hs : Safe m) : Safe m.popFrame := by
  unfold popFrame
  split
  case h_1 => exact hs
  case h_2 f fs hframes =>
    refine hs.update_interp (dropFrameArguments_step hs.sound f) (fun k r hr => ?_)
      (Or.inl ⟨fun _ h => h, Or.inr rfl⟩)
    exact Or.inl (refs_popFrame hframes hr)

theorem safe_suspend (hs : Safe m) (hname : ∀ r ∈ trace val, m.CanName r) :
    Safe (m.suspend val) := by
  unfold suspend
  split
  case h_1 => exact hs
  case h_2 f fs hframes =>
    refine hs.update_interp (.refl hs.sound) (fun k r hr => ?_) (Or.inl ⟨fun _ h => h, Or.inr rfl⟩)
    by_cases htop : k = .topResult
    · subst htop
      have hval : r ∈ trace val ++ [] := hr
      rw [List.append_nil] at hval
      exact Or.inr (hs.alive_of_canName (hname r hval))
    · have hpop : r ∈ (({ m.interp with frames := fs } : Interp).leaveWindow f.base).refs k := by
        cases k with
        | topResult => exact absurd rfl htop
        | _ => exact hr
      exact Or.inl (refs_popFrame hframes hpop)

theorem replaceArguments_frames {frames : List Frame} {old : JsValue} {frames' : List Frame}
    (hr : Interp.replaceArguments val frames = some (old, frames')) :
    frames'.map (fun f => { f with arguments := none }) =
        frames.map (fun f => { f with arguments := none }) ∧
      ∀ f' ∈ frames', f' ∈ frames ∨ f'.arguments = some val := by
  induction frames generalizing frames' with
  | nil => cases hr
  | cons f fs ih =>
    unfold Interp.replaceArguments at hr
    split at hr
    case h_1 a _ =>
      obtain ⟨rfl, rfl⟩ := Prod.mk.inj (Option.some.inj hr)
      refine ⟨rfl, fun f' hf' => ?_⟩
      rcases List.mem_cons.mp hf' with rfl | hf'
      · exact Or.inr rfl
      · exact Or.inl (List.mem_cons_of_mem _ hf')
    case h_2 =>
      obtain ⟨⟨a, rest⟩, hrest, heq⟩ := Option.map_eq_some_iff.mp hr
      obtain ⟨rfl, rfl⟩ := Prod.mk.inj heq
      obtain ⟨hmap, hmem⟩ := ih hrest
      refine ⟨by rw [List.map_cons, List.map_cons, hmap], fun f' hf' => ?_⟩
      rcases List.mem_cons.mp hf' with rfl | hf'
      · exact Or.inl List.mem_cons_self
      · exact (hmem f' hf').imp_left (List.mem_cons_of_mem _)

theorem refs_replaceFrames {frames' : List Frame}
    (hmap : frames'.map (fun f => { f with arguments := none }) =
      i.frames.map (fun f => { f with arguments := none }))
    (hmem : ∀ f' ∈ frames', f' ∈ i.frames ∨ f'.arguments = some val)
    (hr : r ∈ ({ i with frames := frames' } : Interp).refs k) : r ∈ i.refs k ∨ r ∈ trace val := by
  have hother (g : Frame → List Ref) (hg : ∀ f : Frame, g { f with arguments := none } = g f) :
      frames'.flatMap g = i.frames.flatMap g := by
    have hsame := congrArg (List.flatMap g) hmap
    simpa only [List.flatMap_map, hg] using hsame
  cases k with
  | frameArguments =>
    obtain ⟨f', hf', hrf⟩ := List.mem_flatMap.mp hr
    rcases hmem f' hf' with hold | hval
    · exact Or.inl (List.mem_flatMap.mpr ⟨f', hold, hrf⟩)
    · rw [hval] at hrf
      have hone : r ∈ trace val ++ [] := hrf
      rw [List.append_nil] at hone
      exact Or.inr hone
  | frameEnv | frameGenerator | frameDisplay | frameNewTarget =>
    refine Or.inl ?_
    simp only [Interp.refs] at hr ⊢
    rw [hother _ (fun f => rfl)] at hr
    exact hr
  | _ => exact Or.inl hr

theorem safe_setFrameArguments (hs : Safe m) (hname : ∀ r ∈ trace val, m.CanName r) :
    Safe (m.setFrameArguments val) := by
  have hlive : ∀ r ∈ trace val, m.heap.isAlive r = true := fun r hr => hs.alive_of_canName (hname r hr)
  have hadd : HeapStep m.heap (m.heap.addRoot val) :=
    .of_step hs.sound (.addRoot val) hlive (by rintro ⟨⟩)
  unfold setFrameArguments
  split
  case h_1 old frames hfound =>
    have hremove : HeapStep m.heap (m.heap.removeRoot old) :=
      .of_step hs.sound (.removeRoot old) trivial (by rintro ⟨⟩)
    have hboth : HeapStep m.heap ((m.heap.removeRoot old).addRoot val) :=
      hremove.trans (.of_step hremove.sound (.addRoot val)
        (fun r hr => hremove.alive r (hlive r hr)) (by rintro ⟨⟩))
    obtain ⟨hmap, hmem⟩ := replaceArguments_frames hfound
    refine hs.update_interp hboth (fun k r hr => ?_) (Or.inl ⟨fun _ h => h, Or.inr rfl⟩)
    exact (refs_replaceFrames hmap hmem hr).imp_right fun hr => hboth.alive r (hlive r hr)
  case h_2 f fs _ hframes =>
    refine hs.update_interp hadd (fun k r hr => ?_) (Or.inl ⟨fun _ h => h, Or.inr rfl⟩)
    refine (refs_replaceFrames ?_ (fun f' hf' => ?_) hr).imp_right fun hr => hadd.alive r (hlive r hr)
    · rw [hframes]
      rfl
    · rw [hframes]
      rcases List.mem_cons.mp hf' with rfl | hf'
      · exact Or.inr rfl
      · exact Or.inl (List.mem_cons_of_mem _ hf')
  case h_3 => exact hs

theorem safe_assign (hs : Safe m) {next : Interp} (hname : ∀ k, ∀ r ∈ next.refs k, m.CanName r)
    (hcaches : CachesOf next m.interp) :
    Safe { m with interp := next } :=
  hs.update_interp (.refl hs.sound) (fun k r hr => Or.inr (hs.alive_of_canName (hname k r hr)))
    (Or.inl hcaches)

theorem safe_hold (hs : Safe m) {jobs locals : List Ref}
    (hjobs : ∀ r ∈ jobs, r ∈ m.jobs ∨ m.CanName r)
    (hlocals : ∀ r ∈ locals, r ∈ m.locals ∨ m.CanName r) :
    Safe { m with jobs := jobs, locals := locals } := by
  refine hs.update (.refl hs.sound) (fun r hr => ?_) (fun i hi => Or.inl ⟨i, hi, .refl i⟩)
  rcases mem_held.mp hr with hi | hjob | hlocal
  · exact Or.inl (mem_held.mpr (Or.inl hi))
  · exact (hjobs r hjob).imp (fun h => mem_held.mpr (Or.inr (Or.inl h))) hs.alive_of_canName
  · exact (hlocals r hlocal).imp (fun h => mem_held.mpr (Or.inr (Or.inr h))) hs.alive_of_canName

theorem refs_new {global : Option Nat} (hr : r ∈ (Interp.new global).refs k) :
    r ∈ traceHandle .objects global := by
  cases k with
  | persistent =>
    cases global with
    | none => cases hr
    | some g => exact hr
  | _ => cases hr

theorem safe_enterEval (hs : Safe m) {global : Option Nat}
    (hname : ∀ r ∈ traceHandle .objects global, m.CanName r) : Safe (m.enterEval global) := by
  refine hs.update (.refl hs.sound) (fun r hr => ?_) (fun i hi => ?_)
  · rcases mem_held.mp hr with ⟨i, hi, k, hk⟩ | hother
    · rcases List.mem_cons.mp hi with rfl | hi
      · exact Or.inr (hs.alive_of_canName (hname r (refs_new hk)))
      · exact Or.inl (mem_held.mpr (Or.inl ⟨i, hi, k, hk⟩))
    · exact Or.inl (mem_held.mpr (Or.inr hother))
  · rcases List.mem_cons.mp hi with rfl | hi
    · exact Or.inr ⟨by rintro s ⟨⟩, by rintro s ⟨⟩⟩
    · exact Or.inl ⟨i, hi, .refl i⟩

theorem safe_leaveEval (hs : Safe m) : Safe m.leaveEval := by
  unfold leaveEval
  split
  case h_1 => exact hs
  case h_2 i outer houter =>
    have hmem {j : Interp} (hj : j ∈ i :: outer) : j ∈ m.interp :: m.outer := by
      rw [houter]
      exact List.mem_cons_of_mem _ hj
    refine hs.update (.refl hs.sound) (fun r hr => Or.inl ?_) (fun j hj => Or.inl ⟨j, hmem hj, .refl j⟩)
    rcases mem_held.mp hr with ⟨j, hj, k, hk⟩ | hother
    · exact mem_held.mpr (Or.inl ⟨j, hmem hj, k, hk⟩)
    · exact mem_held.mpr (Or.inr hother)

/-! ## §4 Safepoints -/

theorem mem_rootRefs_republished (m : Machine) (r : Ref) :
    r ∈ m.republished.rootRefs ↔ r ∈ m.anchors := by
  have hfields : r ∈ trace m.interp.published ↔
      r ∈ (Holder.all.filter Republished).flatMap m.interp.refs :=
    (m.interp.mem_trace_published r).trans Interp.mem_holders.symm
  have htables : r ∈ m.republished.rootRefs ↔
      r ∈ trace m.interp.published ∨ r ∈ ({ m.heap with roots := [] } : Heap).rootRefs := by
    have hnil : r ∉ trace ([] : List JsValue) := List.not_mem_nil
    rw [Heap.mem_rootRefs, Heap.mem_rootRefs]
    simp only [hnil, false_or]
    rfl
  rw [htables, hfields]
  exact List.mem_append.symm

theorem reachable_republished (m : Machine) (r : Ref) :
    m.republished.Reachable r ↔ Lib.Reach m.heap.inRange m.heap.referents m.anchors r := by
  constructor
  · exact Lib.Reach.mono (fun v hv hdom => ⟨(mem_rootRefs_republished m v).mp hv, hdom⟩)
      fun u _ v hv hdom => ⟨hv, hdom⟩
  · exact Lib.Reach.mono (fun v hv hdom => ⟨(mem_rootRefs_republished m v).mpr hv, hdom⟩)
      fun u _ v hv hdom => ⟨hv, hdom⟩

theorem exposed_held (hr : r ∈ m.exposed) : r ∈ m.held := by
  refine mem_held.mpr ?_
  rcases List.mem_append.mp hr with hr | hlocal
  · rcases List.mem_append.mp hr with hr | hjob
    · rcases List.mem_append.mp hr with hinterp | houter
      · obtain ⟨k, -, hk⟩ := Interp.mem_holders.mp hinterp
        exact Or.inl ⟨m.interp, List.mem_cons_self, k, hk⟩
      · obtain ⟨i, hi, hr⟩ := List.mem_flatMap.mp houter
        obtain ⟨k, -, hk⟩ := Interp.mem_holders.mp hr
        exact Or.inl ⟨i, List.mem_cons_of_mem _ hi, k, hk⟩
    · exact Or.inr (Or.inl hjob)
  · exact Or.inr (Or.inr hlocal)

theorem anchors_or_exposed (hs : Safe m) (hr : r ∈ m.held) :
    r ∈ m.anchors ∨ r ∈ m.exposed := by
  have hpinned {i : Interp} (hi : i ∈ m.interp :: m.outer) {k : Holder} (hk : Permanent k = true)
      (hr : r ∈ i.refs k) : r ∈ m.anchors :=
    List.mem_append_right _ ((hs.pinned i hi).mem_rootRefs hk hr)
  rcases mem_held.mp hr with ⟨i, hi, k, hk⟩ | hjob | hlocal
  · by_cases hperm : Permanent k = true
    · exact Or.inl (hpinned hi hperm hk)
    · rcases List.mem_cons.mp hi with rfl | houter
      · by_cases hpub : Republished k = true
        · exact Or.inl (List.mem_append_left _ (Interp.mem_holders.mpr ⟨k, hpub, hk⟩))
        · have hkind : (!Republished k && !Permanent k) = true := by simp [hpub, hperm]
          have hmem := (Interp.mem_holders (p := fun k => !Republished k && !Permanent k)).mpr
            ⟨k, hkind, hk⟩
          exact Or.inr (List.mem_append_left _ (List.mem_append_left _ (List.mem_append_left _ hmem)))
      · have hkind : (!Permanent k) = true := by simp [hperm]
        have hholds := (Interp.mem_holders (p := fun k => !Permanent k)).mpr ⟨k, hkind, hk⟩
        have hmem : r ∈ m.outer.flatMap fun i =>
            (Holder.all.filter fun k => !Permanent k).flatMap i.refs :=
          List.mem_flatMap.mpr ⟨i, houter, hholds⟩
        exact Or.inr (List.mem_append_left _ (List.mem_append_left _ (List.mem_append_right _ hmem)))
  · exact Or.inr (List.mem_append_left _ (List.mem_append_right _ hjob))
  · exact Or.inr (List.mem_append_right _ hlocal)

theorem sound_republished (hs : Safe m) : Sound m.republished := by
  have hkept : m.heap.Kept (.setRoots m.interp.published) := by
    intro r hr
    obtain ⟨k, -, hk⟩ := (m.interp.mem_trace_published r).mp hr
    exact hs.live r (mem_held.mpr (Or.inl ⟨m.interp, List.mem_cons_self, k, hk⟩))
  exact step_sound hs.sound hkept

theorem sameCell_pruneCell (marked : Nat → Bool) (space : Space) (cell : Cell space) :
    SameCell space cell (pruneCell marked space cell) := by
  cases space <;> rfl

/-- **At a safepoint**: the root set is complete when the exposed handles are kept
by the anchors, and only then. -/
theorem rootsComplete_iff_covered (hs : Safe m) : RootsComplete m ↔
    ∀ r ∈ m.exposed, Lib.Reach m.heap.inRange m.heap.referents m.anchors r := by
  constructor
  · intro hcomplete r hr
    exact (reachable_republished m r).mp (hcomplete.rooted r (exposed_held hr))
  · intro hcovered
    have hrooted : ∀ r ∈ m.held, m.republished.Reachable r := by
      intro r hr
      rw [reachable_republished]
      rcases anchors_or_exposed hs hr with hanchor | hexposed
      · exact .root hanchor (get_none_or_inRange (hs.live r hr))
      · exact hcovered r hexposed
    refine ⟨hrooted, fun r hr => ?_⟩
    have hreach : m.republished.Reachable r :=
      Lib.Reach.subset_closed (fun v hv _ => hrooted v hv) (fun u hu v hv hdom => .step hu hv hdom) hr
    have hsound : Sound m.republished := sound_republished hs
    refine ⟨(isAlive_forceCollect hsound r).mpr hreach, fun cell hcell => ?_⟩
    have hsame : m.republished.get r = some cell := hcell
    refine ⟨_, ?_, sameCell_pruneCell (fun i => m.republished.mark (.shapes, i)) r.1 cell⟩
    rw [get_forceCollect hsound hreach, hsame]
    rfl

/-- A heap the collector may run on: sound, everything held reachable. -/
structure Collectable (m : Machine) (h : Heap) : Prop where
  sound : Sound h
  reachable : ∀ r ∈ m.held, h.Reachable r
  tables : TablesGrow m.heap h

theorem Collectable.forceCollect (hc : Collectable m h) :
    Collectable m h.forceCollect :=
  ⟨forceCollect_sound hc.sound, fun r hr => reachable_forceCollect hc.sound (hc.reachable r hr),
    hc.tables.trans (step_tables h .forceCollect)⟩

theorem safe_gcProtect (hs : Safe m) (hcomplete : RootsComplete m) (growth stress : Bool) :
    Safe (m.gcProtect growth stress) := by
  have hstart : Collectable m m.republished :=
    ⟨sound_republished hs, hcomplete.rooted, .of_eq rfl rfl⟩
  have hgrown : Collectable m (if growth then m.republished.forceCollect else m.republished) := by
    split
    · exact hstart.forceCollect
    · exact hstart
  have hend : Collectable m (m.gcProtect growth stress).heap := by
    unfold gcProtect
    dsimp only
    cases stress with
    | true => exact hgrown.forceCollect
    | false => exact hgrown
  refine ⟨hend.sound, fun r hr => ?_, fun i hi => ?_⟩
  · exact hend.sound.alive_of_reachable (hend.reachable r hr)
  · exact (hs.pinned i hi).mono hend.tables (.refl i)

/-! ## §5 Runs -/

/-- **Step rule.** -/
theorem safe_step (hs : Safe m) {op : Op} (hprov : m.Provenance op) (hcovered : m.Covered op) :
    Safe (m.step op) := by
  cases op with
  | gcProtect growth stress =>
    exact safe_gcProtect hs ((rootsComplete_iff_covered hs).mpr hcovered) growth stress
  | call op => exact safe_call hs hprov.1 hprov.2
  | cacheString hash text => exact safe_cacheString hs hash text
  | cacheLengthShape shape => exact safe_cacheLengthShape hs hprov
  | pushFrame frame window => exact safe_pushFrame hs hprov
  | popFrame => exact safe_popFrame hs
  | suspend val => exact safe_suspend hs hprov
  | setFrameArguments val => exact safe_setFrameArguments hs hprov
  | assign next => exact safe_assign hs hprov.1 ⟨hprov.2.1, hprov.2.2⟩
  | setLocals locals => exact safe_hold hs (fun _ hr => Or.inl hr) fun r hr => Or.inr (hprov r hr)
  | setJobs jobs => exact safe_hold hs (fun r hr => Or.inr (hprov r hr)) fun _ hr => Or.inl hr
  | enterEval global => exact safe_enterEval hs hprov
  | leaveEval => exact safe_leaveEval hs

theorem safe_new : Safe Machine.new := by
  refine ⟨sound_new, fun r hr => ?_, fun i hi => ?_⟩
  · rcases mem_held.mp hr with ⟨i, hi, k, hk⟩ | hjob | hlocal
    · obtain rfl := List.mem_singleton.mp hi
      cases refs_new hk
    · cases hjob
    · cases hlocal
  · obtain rfl := List.mem_singleton.mp hi
    exact ⟨by rintro s ⟨⟩, by rintro s ⟨⟩⟩

/-- **Run rule**: covered at every safepoint, a run never holds a dead handle. -/
theorem safe_run {ops : List Op} (hprov : Lib.StepsMeet step Provenance new ops)
    (hcovered : Lib.StepsMeet step Covered new ops) : Safe (Lib.run step new ops) :=
  Lib.run_invariant (I := Safe) (fun _ _ hs hboth => safe_step hs hboth.1 hboth.2) safe_new
    (Lib.stepsMeet_and hprov hcovered)

/-- **The root sets of a run are complete, and no held handle dangles in any of its
states, exactly when every safepoint is covered.** -/
theorem roots_complete_iff (ops : List Op) (hprov : Lib.StepsMeet step Provenance new ops) :
    ((∀ before growth stress after, ops = before ++ .gcProtect growth stress :: after →
        RootsComplete (Lib.run step new before)) ∧
      ∀ before after, ops = before ++ after →
        ∀ r ∈ (Lib.run step new before).held, (Lib.run step new before).heap.isAlive r = true) ↔
      Lib.StepsMeet step Covered new ops := by
  constructor
  · rintro ⟨hcomplete, -⟩
    by_contra hfail
    obtain ⟨before, op, after, heq, hmeet, hbad⟩ := Lib.exists_first_failure hfail
    have hsafe : Safe (Lib.run step new before) := by
      rw [heq, Lib.stepsMeet_append] at hprov
      exact safe_run hprov.1 hmeet
    refine hbad ?_
    cases op with
    | gcProtect growth stress =>
      exact (rootsComplete_iff_covered hsafe).mp (hcomplete before growth stress after heq)
    | _ => trivial
  · intro hcovered
    refine ⟨fun before growth stress after heq => ?_, fun before after heq => ?_⟩
    · subst heq
      have hsafe := safe_run (Lib.stepsMeet_append.mp hprov).1 (Lib.stepsMeet_append.mp hcovered).1
      exact (rootsComplete_iff_covered hsafe).mpr (hcovered.at_step rfl)
    · subst heq
      exact (safe_run (Lib.stepsMeet_append.mp hprov).1 (Lib.stepsMeet_append.mp hcovered).1).live

/-! ## §6 The `arguments` object that is lost -/

/-- An activation at the bottom of the stack with this `arguments`. -/
def activation (arguments : Option JsValue) : Frame := ⟨0, none, [], none, none, arguments⟩

/-- An object that its frame holds as `arguments` and the stack holds too. -/
def sharedArguments : List Op :=
  [.call (.alloc .objects default), .pushFrame (activation (some (.object 0))) [.object 0],
   .setLocals [], .gcProtect true true]

theorem sharedArguments_complete :
    (∀ before growth stress after, sharedArguments = before ++ .gcProtect growth stress :: after →
        RootsComplete (Lib.run step new before)) ∧
      ∀ before after, sharedArguments = before ++ after →
        ∀ r ∈ (Lib.run step new before).held, (Lib.run step new before).heap.isAlive r = true := by
  refine (roots_complete_iff sharedArguments ?_).mpr ?_
  · have hname : ∀ r ∈ (activation (some (.object 0))).refs ++ trace [JsValue.object 0],
        r = (.objects, 0) := by decide
    refine ⟨⟨id, fun r hr => by cases hr⟩, fun r hr => ?_, fun r hr => (by cases hr), trivial, trivial⟩
    rw [hname r hr]
    exact Or.inr (by decide)
  · refine ⟨trivial, trivial, trivial, fun r hr => ?_, trivial⟩
    have hexposed : (Lib.run step new [.call (.alloc .objects default),
        .pushFrame (activation (some (.object 0))) [.object 0], .setLocals []]).exposed =
          [((.objects, 0) : Ref)] := by decide
    have hmem := List.mem_singleton.mp (hexposed ▸ hr)
    subst hmem
    exact .root (by decide) (by decide)

/-- A script in `f()`, where `f` uses `arguments`. `make_arguments_object` parks the
object on the stack over its own safepoint; then the frame alone holds it. -/
def lostArguments : List Op :=
  [.pushFrame (activation none) [], .call (.alloc .objects default),
   .assign { Interp.new none with frames := [activation none], stack := [.object 0] },
   .gcProtect true false,
   .assign { Interp.new none with frames := [activation none] },
   .call (.addRoot (.object 0)), .pushFrame (activation (some (.object 0))) [], .setLocals [],
   .gcProtect true false]

theorem lostArguments_provenance : Lib.StepsMeet step Provenance new lostArguments := by
  have hnone : ∀ r ∈ (activation none).refs ++ trace ([] : List JsValue), r = (.objects, 0) := by decide
  have hparked (k : Holder) : ∀ r ∈ ({ Interp.new none with
      frames := [activation none], stack := [.object 0] } : Interp).refs k, r = (.objects, 0) := by
    cases k <;> decide
  have hbare (k : Holder) : ∀ r ∈ ({ Interp.new none with frames := [activation none] } : Interp).refs k,
      r = (.objects, 0) := by
    cases k <;> decide
  have hvalue : ∀ r ∈ trace (JsValue.object 0), r = (.objects, 0) := by decide
  have hframe : ∀ r ∈ (activation (some (.object 0))).refs ++ trace ([] : List JsValue),
      r = (.objects, 0) := by decide
  refine ⟨fun r hr => (by cases hr), ⟨id, fun r hr => by cases hr⟩,
    ⟨fun k r hr => ?_, List.nil_subset _, Or.inl rfl⟩, trivial,
    ⟨fun k r hr => ?_, List.nil_subset _, Or.inl rfl⟩, ⟨id, fun r hr => ?_⟩, fun r hr => ?_,
    fun r hr => (by cases hr), trivial, trivial⟩
  · rw [hparked k r hr]
    exact Or.inr (by decide)
  · rw [hbare k r hr]
    exact Or.inr (by decide)
  · rw [hvalue r hr]
    exact Or.inr (by decide)
  · rw [hframe r hr]
    exact Or.inr (by decide)

/-- The last safepoint reclaims the object while the frame still holds it. -/
theorem not_roots_complete :
    ¬ ∀ ops, Lib.StepsMeet step Provenance new ops →
      (∀ before growth stress after, ops = before ++ .gcProtect growth stress :: after →
        RootsComplete (Lib.run step new before)) ∧
      ∀ before after, ops = before ++ after →
        ∀ r ∈ (Lib.run step new before).held, (Lib.run step new before).heap.isAlive r = true := by
  intro hall
  have hlive := (hall lostArguments lostArguments_provenance).2 lostArguments [] (List.append_nil _).symm
    (.objects, 0) (by decide)
  revert hlive
  decide

end Machine

end V12.Roots
