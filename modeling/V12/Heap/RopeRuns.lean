/-
V12.Heap.RopeRuns — the strings of the heap over whole runs.

`RopeState` is the heap beside a reference: what each handle's text is by the
calls that made it, concatenation as append and a slice as a window. A call
that panics ends the process; `step` then stays where it is.
-/
import V12.Heap.RopeTheorems

namespace V12.Heap

/-! ## §1 The machine -/

def refUnits (units : Nat → List (BitVec 16)) : StrStorage → List (BitVec 16)
  | .latin1 bytes => bytes.map widen
  | .utf16 leaf => leaf
  | .cons left right _ => units left ++ units right
  | .sliced parent startUtf16 len => ((units parent).drop startUtf16).take len

/-- One call: on the strings, or on anything else. -/
inductive StrOp where
  | gc (op : GcOp)
  | alloc (value : V12Str)
  | concat (left right : Nat)
  | slice (parent startUtf16 len : Nat)
  | flatten (handle : Nat)
  | hash (handle : Nat)
  | intern (text : V12Str)

structure RopeState where
  heap : Heap
  units : Nat → List (BitVec 16)
  /-- The texts interned with the handles answered, the latest first. -/
  answers : List (List (BitVec 16) × Nat)

namespace RopeState

def new : RopeState := ⟨Heap.new, fun _ => [], []⟩

def made (s : RopeState) (heap : Heap) (handle : Nat) (units : List (BitVec 16)) : RopeState :=
  { s with heap := heap, units := Function.update s.units handle units }

def exec (s : RopeState) : StrOp → Option RopeState
  | .gc op => some { s with heap := s.heap.step op }
  | .alloc value =>
    let r := s.heap.alloc .strings value
    some (s.made r.1 r.2 (refUnits s.units value.storage))
  | .concat left right =>
    (s.heap.concat left right).map fun r => s.made r.1 r.2 (s.units left ++ s.units right)
  | .slice parent startUtf16 len =>
    (s.heap.sliceString parent startUtf16 len).map fun r =>
      match r.2 with
      | some handle => s.made r.1 handle (((s.units parent).drop startUtf16).take len)
      | none => { s with heap := r.1 }
  | .flatten handle => (s.heap.flatten handle).map fun heap => { s with heap := heap }
  | .hash handle => (s.heap.stringHash handle).map fun r => { s with heap := r.1 }
  | .intern text =>
    (s.heap.internOwned text).map fun r =>
      { s.made r.1 r.2 (refUnits s.units text.storage) with
        answers := (refUnits s.units text.storage, r.2) :: s.answers }

def step (s : RopeState) (op : StrOp) : RopeState := (s.exec op).getD s

def isLive (s : RopeState) (handle : Nat) : Bool := s.heap.isAlive (.strings, handle)

/-- What a string its caller owns names is live, and its length is right. -/
def Owns (s : RopeState) : StrStorage → Prop
  | .latin1 _ | .utf16 _ => True
  | .cons left right len => s.isLive left = true ∧ s.isLive right = true ∧
      len = (s.units left).length + (s.units right).length ∧ len < u32Limit
  | .sliced parent startUtf16 len => s.isLive parent = true ∧
      startUtf16 + len ≤ (s.units parent).length ∧ (s.units parent).length < u32Limit

end RopeState

def GcOp.LeavesStrings : GcOp → Prop
  | .alloc space _ | .write space _ _ => space ≠ .strings
  | .internString .. => False
  | .setRoots _ | .addRoot _ | .removeRoot _ | .addShapeRoot _ | .bindShape .. => True
  | .registerRealmGlobal _ | .deregisterRealmGlobal _ | .addModuleRoot _ | .addPinnedRoot _ => True
  | .symbolForKey _ | .wellKnownSymbol _ | .sweepStep _ | .forceCollect => True

/-- **The caller's contract**: handles are live, and strings handed over are fresh. -/
def RopeState.Kept (s : RopeState) : StrOp → Prop
  | .gc op => s.heap.Kept op ∧ op.LeavesStrings
  | .alloc value => s.Owns value.storage ∧ value.hash = none
  | .concat left right => s.isLive left = true ∧ s.isLive right = true
  | .slice parent _ _ => s.isLive parent = true
  | .flatten handle | .hash handle => s.isLive handle = true
  | .intern text => s.Owns text.storage

/-! ## §2 The other calls -/

variable {h : Heap} {units : Nat → List (BitVec 16)}
variable {op : GcOp} {i : Nat} {u : List (BitVec 16)} {text : FlatText}

theorem spaces_alloc_of_ne (h : Heap) {space other : Space} (hne : other ≠ space)
    (value : Cell space) : (h.alloc space value).1.spaces other = h.spaces other :=
  spaces_setSpace_of_ne h hne _

theorem spaces_write_of_ne (h : Heap) {space other : Space} (hne : other ≠ space) (i : Nat)
    (value : Cell space) : (h.write space i value).spaces other = h.spaces other :=
  spaces_setSpace_of_ne h hne _

theorem step_strings (hs : Sound h) (hleaves : op.LeavesStrings)
    (hi : (h.step op).isAlive (.strings, i) = true) :
    h.isAlive (.strings, i) = true ∧ (h.step op).str i = h.str i := by
  have hspace {h' : Heap} (heq : h'.spaces .strings = h.spaces .strings)
      (hi : h'.isAlive (.strings, i) = true) :
      h.isAlive (.strings, i) = true ∧ h'.str i = h.str i := by
    unfold isAlive at hi ⊢
    unfold str Heap.get
    rw [heq] at hi ⊢
    exact ⟨hi, rfl⟩
  cases op with
  | alloc space value => exact hspace (spaces_alloc_of_ne h (Ne.symm hleaves) value) hi
  | write space j value => exact hspace (spaces_write_of_ne h (Ne.symm hleaves) j value) hi
  | internString hash text => exact hleaves.elim
  | bindShape obj shape =>
    refine hspace ?_ hi
    show (h.bindShape obj shape).spaces .strings = _
    unfold bindShape
    split
    case h_1 o _ =>
      exact spaces_write_of_ne h (show Space.strings ≠ .objects by decide) obj
        { o with shape := shape }
    case h_2 => rfl
  | registerRealmGlobal global =>
    refine hspace ?_ hi
    show (h.registerRealmGlobal global).spaces .strings = _
    unfold registerRealmGlobal
    split <;> rfl
  | addModuleRoot object =>
    refine hspace ?_ hi
    show (h.addModuleRoot object).spaces .strings = _
    unfold addModuleRoot
    split <;> rfl
  | addPinnedRoot object =>
    refine hspace ?_ hi
    show (h.addPinnedRoot object).spaces .strings = _
    unfold addPinnedRoot
    split <;> rfl
  | symbolForKey key =>
    refine hspace ?_ hi
    show (h.symbolForKey key).1.spaces .strings = _
    unfold symbolForKey
    split
    · rfl
    · exact spaces_alloc_of_ne h (show Space.strings ≠ .symbols by decide) V12Symbol.mk
  | wellKnownSymbol which =>
    refine hspace ?_ hi
    show (h.wellKnownSymbol which).1.spaces .strings = _
    unfold wellKnownSymbol
    simp only []
    split
    · rfl
    · exact spaces_alloc_of_ne h (show Space.strings ≠ .symbols by decide) V12Symbol.mk
  | sweepStep space =>
    by_cases hstrings : space = .strings
    · subst hstrings
      have hsweeps := SpaceState.sweepStep_sweeps (h.spaces .strings)
      change ((h.setSpace .strings _).spaces .strings).isAlive i = true at hi
      rw [spaces_setSpace_self, hsweeps.isAlive] at hi
      refine ⟨hi, ?_⟩
      show ((h.setSpace .strings _).spaces .strings).slots[i]? = _
      rw [spaces_setSpace_self]
      exact hsweeps.contents i hi
    · exact hspace (spaces_setSpace_of_ne h (Ne.symm hstrings) _) hi
  | forceCollect =>
    have hreach := (isAlive_forceCollect hs _).mp hi
    exact ⟨hs.alive_of_reachable hreach, (get_forceCollect hs hreach).trans Option.map_id'⟩
  | _ => exact hspace rfl hi

theorem internedStrings_step (h : Heap) (hleaves : op.LeavesStrings) :
    (h.step op).internedStrings = h.internedStrings := by
  cases op with
  | internString hash text => exact hleaves.elim
  | bindShape obj shape =>
    show (h.bindShape obj shape).internedStrings = _
    unfold bindShape
    split <;> rfl
  | registerRealmGlobal global =>
    show (h.registerRealmGlobal global).internedStrings = _
    unfold registerRealmGlobal
    split <;> rfl
  | addModuleRoot object =>
    show (h.addModuleRoot object).internedStrings = _
    unfold addModuleRoot
    split <;> rfl
  | addPinnedRoot object =>
    show (h.addPinnedRoot object).internedStrings = _
    unfold addPinnedRoot
    split <;> rfl
  | symbolForKey key =>
    show (h.symbolForKey key).1.internedStrings = _
    unfold symbolForKey
    split <;> rfl
  | wellKnownSymbol which =>
    show (h.wellKnownSymbol which).1.internedStrings = _
    unfold wellKnownSymbol
    simp only []
    split <;> rfl
  | _ => rfl

/-- **Any other call keeps every text that stays.** -/
theorem Keeps.gc (hinv : Strings h units) (hkept : h.Kept op) (hleaves : op.LeavesStrings) :
    Keeps h (h.step op) units units := by
  have hsame (i : Nat) (hi : (h.step op).isAlive (.strings, i) = true) :=
    step_strings hinv.sound hleaves hi
  refine ⟨hinv.carry (step_sound hinv.sound hkept) hsame, fun _ _ => rfl,
    fun i _ hi' ⟨s, hs, hflat⟩ => ⟨s, (hsame i hi').2.trans hs, hflat⟩,
    internedStrings_step h hleaves⟩

/-! ## §3 Interning -/

theorem Strings.interned_alive (hinv : Strings h units) {bucket : Nat × List Nat}
    (hb : bucket ∈ h.internedStrings) (hi : i ∈ bucket.2) : h.isAlive (.strings, i) = true := by
  refine hinv.sound.roots _ ((mem_rootRefs h _).mpr ?_)
  have hmember : ∃ b ∈ h.internedStrings, ∃ j ∈ b.2, ((.strings, i) : Ref) = (.strings, j) :=
    ⟨bucket, hb, i, hi, rfl⟩
  simp only [hmember, true_or, or_true]

theorem internOwned_eq {value : V12Str} (hu : OwnedDenotes h value.storage u) :
    ∃ text : FlatText, text.storage.flatUnits = some u ∧
      h.internOwned value = some (h.internString (fnv u) text) := by
  obtain ⟨runs, hruns, rfl⟩ := walkLeaves_owned hu
  obtain ⟨text, htext, hunits⟩ := materialize_units hruns
  refine ⟨text, hunits, ?_⟩
  simp only [internOwned, htext, hashFlat, hunits, Option.map_some, Option.bind_eq_bind,
    Option.bind_some]

theorem findInterned_some (hinv : Strings h units) (hu : text.storage.flatUnits = some u)
    {hash : Nat} (hfound : h.findInterned hash text = some i) :
    units i = u ∧ ∃ bucket, (hash, bucket) ∈ h.internedStrings ∧ i ∈ bucket := by
  unfold findInterned at hfound
  cases hlookup : h.internedStrings.lookup hash with
  | none => simp [hlookup] at hfound
  | some bucket =>
    rw [hlookup, Option.getD_some] at hfound
    obtain ⟨l₁, l₂, htable, -⟩ := List.lookup_eq_some_iff.mp hlookup
    have hbucket : (hash, bucket) ∈ h.internedStrings := by rw [htable]; simp
    have hmem := List.mem_of_find?_eq_some hfound
    have htest := List.find?_some hfound
    refine ⟨?_, bucket, hbucket, hmem⟩
    have halive := hinv.interned_alive hbucket hmem
    obtain ⟨n, hd⟩ := hinv.texts i halive
    obtain ⟨s, hs, -⟩ := hd.len
    have hget : h.get (.strings, i) = some s := hs
    rw [hget, hu] at htest
    have hflat : s.storage.flatUnits = some u := eq_of_beq htest
    have hleaf : h.nodes i = some (.leaf u) :=
      nodes_eq_some.mpr ⟨halive, s, hs, StrStorage.node_leaf.mpr hflat⟩
    exact (hd.unique (.leaf hleaf)).1

theorem findInterned_none (hinv : Strings h units) (hu : text.storage.flatUnits = some u)
    {hash : Nat} (hmiss : h.findInterned hash text = none)
    (hi : i ∈ (h.internedStrings.lookup hash).getD []) (hflat : Flat h i)
    (halive : h.isAlive (.strings, i) = true) : units i ≠ u := by
  intro heq
  obtain ⟨n, hd⟩ := hinv.texts i halive
  obtain ⟨s, hs, hsflat⟩ := hflat
  have hget : h.get (.strings, i) = some s := hs
  have htest := List.find?_eq_none.mp hmiss i hi
  rw [hget, hu] at htest
  apply htest
  show (s.storage.flatUnits == some u) = true
  rw [hd.flatUnits hs hsflat, heq]
  exact beq_self_eq_true _

theorem OwnedDenotes.of_flat {storage : StrStorage} (hu : storage.flatUnits = some u) :
    OwnedDenotes h storage u := by
  cases storage with
  | latin1 bytes => exact (Option.some.inj hu).symm
  | utf16 leaf => exact (Option.some.inj hu).symm
  | cons l r len => cases hu
  | sliced p start len => cases hu

theorem internString_hit {hash : BitVec 32} (hfound : h.findInterned hash.toNat text = some i) :
    h.internString hash text = (h, i) := by
  unfold internString
  rw [hfound]

def filed (h : Heap) (hash : BitVec 32) (i : Nat) : List (Nat × List Nat) :=
  (hash.toNat, (h.internedStrings.lookup hash.toNat).getD [] ++ [i]) ::
    h.internedStrings.filter fun e => e.1 ≠ hash.toNat

theorem internString_miss {hash : BitVec 32} (hmiss : h.findInterned hash.toNat text = none) :
    h.internString hash text =
      let r := h.alloc .strings ⟨text.storage, some hash⟩
      ({ r.1 with internedStrings := h.filed hash r.2 }, r.2) := by
  unfold internString
  rw [hmiss]
  rfl

/-- **Interning keeps every text** and answers a handle of its own text. -/
theorem Strings.internString (hinv : Strings h units) (hu : text.storage.flatUnits = some u) :
    Strings (h.internString (fnv u) text).1
      (Function.update units (h.internString (fnv u) text).2 u) := by
  cases hfound : h.findInterned (fnv u).toNat text with
  | some i =>
    rw [internString_hit hfound]
    obtain ⟨heq, -⟩ := findInterned_some hinv hu hfound
    show Strings h (Function.update units i u)
    rw [← heq, Function.update_eq_self]
    exact hinv
  | none =>
    have hsound : Sound (h.step (.internString (fnv u) text)) := step_sound hinv.sound trivial
    have halloc : Strings _ _ := @Strings.alloc h units ⟨text.storage, some (fnv u)⟩ u hinv
      (OwnedDenotes.of_flat hu) fun hash hh => (Option.some.inj hh).symm
    change Sound (h.internString (fnv u) text).1 at hsound
    rw [internString_miss hfound] at hsound ⊢
    exact halloc.carry hsound fun i hi => ⟨hi, rfl⟩

theorem internString_units (hinv : Strings h units) (hu : text.storage.flatUnits = some u)
    (hi : h.isAlive (.strings, i) = true) :
    Function.update units (h.internString (fnv u) text).2 u i = units i := by
  by_cases heq : i = (h.internString (fnv u) text).2
  · rw [heq, Function.update_self]
    cases hfound : h.findInterned (fnv u).toNat text with
    | some j =>
      rw [internString_hit hfound]
      exact (findInterned_some hinv hu hfound).1.symm
    | none =>
      rw [internString_miss hfound] at heq
      have hdead := isAlive_alloc_before hinv.sound.ledgers .strings ⟨text.storage, some (fnv u)⟩
      rw [heq] at hi
      exact absurd (hi.symm.trans hdead) (by decide)
  · exact Function.update_of_ne heq _ _

/-! ## §4 The step -/

namespace RopeState

variable {s : RopeState}

theorem Owns.denotes (hinv : Strings s.heap s.units) {storage : StrStorage}
    (howns : s.Owns storage) : OwnedDenotes s.heap storage (refUnits s.units storage) := by
  cases storage with
  | latin1 bytes => rfl
  | utf16 leaf => rfl
  | cons l r len =>
    obtain ⟨hl, hr, hlen, hcap⟩ := howns
    obtain ⟨m, hdl⟩ := hinv.texts l hl
    obtain ⟨n, hdr⟩ := hinv.texts r hr
    exact ⟨_, m, _, n, hdl, hdr, hlen, hcap, rfl⟩
  | sliced p start len =>
    obtain ⟨hp, hbounds, hcap⟩ := howns
    obtain ⟨n, hd⟩ := hinv.texts p hp
    exact ⟨_, n, hd, hbounds, hcap, rfl⟩

theorem step_of_exec {op : StrOp} {s' : RopeState} (hexec : s.exec op = some s') :
    s.step op = s' := by rw [step, hexec]; rfl

theorem step_of_panic {op : StrOp} (hexec : s.exec op = none) : s.step op = s := by
  rw [step, hexec]
  rfl

theorem keeps_step (hinv : Strings s.heap s.units) {op : StrOp} (hkept : s.Kept op)
    (hnot : ∀ text, op ≠ .intern text) :
    Keeps s.heap (s.step op).heap s.units (s.step op).units ∧ (s.step op).answers = s.answers := by
  have hpanic (hexec : s.exec op = none) :
      Keeps s.heap (s.step op).heap s.units (s.step op).units ∧
        (s.step op).answers = s.answers := by
    rw [step_of_panic hexec]
    exact ⟨Keeps.refl hinv, rfl⟩
  cases op with
  | gc op => exact ⟨Keeps.gc hinv hkept.1 hkept.2, rfl⟩
  | alloc value =>
    refine ⟨Keeps.alloc hinv (Owns.denotes hinv hkept.1) fun hash hh => ?_, rfl⟩
    rw [hkept.2] at hh
    cases hh
  | concat l r =>
    by_cases hfit : (s.units l).length + (s.units r).length < u32Limit
    · obtain ⟨h', i, hret, -, hkeeps⟩ := concat_spec hinv hkept.1 hkept.2 hfit
      rw [step_of_exec (by rw [exec, hret]; rfl)]
      exact ⟨hkeeps, rfl⟩
    · refine hpanic ?_
      rw [exec, concat_panics hinv hkept.1 hkept.2 (Nat.le_of_not_lt hfit)]
      rfl
  | slice p start len =>
    rcases sliceString_spec hinv hkept start len with
      ⟨hret, -, -⟩ | ⟨-, hret⟩ | ⟨-, -, h', i, hret, -, hkeeps⟩
    · exact hpanic (by rw [exec, hret]; rfl)
    · rw [step_of_exec (by rw [exec, hret]; rfl)]
      exact ⟨Keeps.refl hinv, rfl⟩
    · rw [step_of_exec (by rw [exec, hret]; rfl)]
      exact ⟨hkeeps, rfl⟩
  | flatten i =>
    obtain ⟨h', hret, hkeeps, -⟩ := flatten_spec hinv hkept
    rw [step_of_exec (by rw [exec, hret]; rfl)]
    exact ⟨hkeeps, rfl⟩
  | hash i =>
    cases hret : s.heap.stringHash i with
    | none => exact hpanic (by rw [exec, hret]; rfl)
    | some r =>
      obtain ⟨-, hkeeps⟩ := (stringHash_spec hinv hkept).2 r.1 r.2 hret
      rw [step_of_exec (by rw [exec, hret]; rfl)]
      exact ⟨hkeeps, rfl⟩
  | intern text => exact absurd rfl (hnot text)

theorem step_intern (hinv : Strings s.heap s.units) {text : V12Str} (howns : s.Owns text.storage) :
    ∃ flat : FlatText, flat.storage.flatUnits = some (refUnits s.units text.storage) ∧
      let r := s.heap.internString (fnv (refUnits s.units text.storage)) flat
      s.step (.intern text) =
        { s.made r.1 r.2 (refUnits s.units text.storage) with
          answers := (refUnits s.units text.storage, r.2) :: s.answers } := by
  obtain ⟨flat, hunits, hret⟩ := internOwned_eq (Owns.denotes hinv howns)
  refine ⟨flat, hunits, step_of_exec ?_⟩
  rw [exec, hret]
  rfl

/-- **Step rule**: every call under the contract keeps the texts. -/
theorem strings_step (hinv : Strings s.heap s.units) {op : StrOp} (hkept : s.Kept op) :
    Strings (s.step op).heap (s.step op).units := by
  cases op with
  | intern text =>
    obtain ⟨flat, hunits, hstep⟩ := step_intern hinv hkept
    rw [hstep]
    exact hinv.internString hunits
  | _ => exact (keeps_step hinv hkept fun text heq => by cases heq).1.strings

theorem strings_new : Strings RopeState.new.heap RopeState.new.units :=
  ⟨sound_new, (fun i hi => by cases hi), (fun i s hash hi => by cases hi)⟩

/-- **Run rule.** -/
theorem strings_run {ops : List StrOp} (hkept : Lib.StepsMeet step Kept new ops) :
    Strings (Lib.run step new ops).heap (Lib.run step new ops).units :=
  Lib.run_invariant (I := fun s : RopeState => Strings s.heap s.units)
    (fun _ _ hinv hk => strings_step hinv hk) strings_new hkept

/-! ## §5 The strings refine their reference -/

/-- The readers of a live string answer the reference. -/
structure ReadsReference (s : RopeState) (i : Nat) : Prop where
  materialized : ∀ text, s.heap.materialize (.resident i) = some text →
    text.storage.flatUnits = some (s.units i)
  /-- No leaf is read outside its bounds: the walk returns unless `len_u32` refuses to start it. -/
  returns : (s.heap.materialize (.resident i)).isSome ↔ (s.units i).length < u32Limit
  hashed : ∀ heap hash, s.heap.stringHash i = some (heap, hash) → hash = fnv (s.units i)
  hashes : (s.units i).length < u32Limit → (s.heap.stringHash i).isSome
  compared : ∀ j, s.isLive j = true →
    s.heap.stringsEqual i j = some (decide (s.units i = s.units j))

theorem readsReference (hinv : Strings s.heap s.units) {i : Nat} (hi : s.isLive i = true) :
    s.ReadsReference i := by
  obtain ⟨n, hd⟩ := hinv.texts i hi
  have hash := stringHash_spec hinv hi
  have hshort (hfit : (s.units i).length < u32Limit) := materialize_resident hd hfit
  have hlong (hfit : ¬ (s.units i).length < u32Limit) :
      s.heap.materialize (.resident i) = none := by
    rw [materialize, walkLeaves_resident_long hd (Nat.le_of_not_lt hfit)]
    rfl
  refine ⟨fun text htext => ?_, ⟨fun hsome => ?_, fun hfit => ?_⟩,
    fun heap value hret => (hash.2 heap value hret).1, hash.1,
    fun j hj => stringsEqual_spec hinv hi hj⟩
  · by_cases hfit : (s.units i).length < u32Limit
    · obtain ⟨flat, hflat, hunits⟩ := hshort hfit
      obtain rfl : flat = text := Option.some.inj (hflat.symm.trans htext)
      exact hunits
    · rw [hlong hfit] at htext
      cases htext
  · by_contra hfit
    rw [hlong hfit] at hsome
    cases hsome
  · obtain ⟨flat, hflat, -⟩ := hshort hfit
    rw [hflat]
    rfl

/-- **Strings refine their reference over every run**: each live string reads as its
reference text, flattening one returns and leaves all of them so, and every call keeps the
text of what lived before it. -/
theorem strings_refine (ops : List StrOp) (hkept : Lib.StepsMeet step Kept new ops) :
    ∀ s, s = Lib.run step new ops →
      (∀ i, s.isLive i = true → s.ReadsReference i) ∧
      (∀ k, s.isLive k = true → ∃ heap, s.heap.flatten k = some heap ∧
        ∀ i, s.isLive i = true → RopeState.ReadsReference { s with heap := heap } i) ∧
      ∀ op, s.Kept op → ∀ i, s.isLive i = true → (s.step op).units i = s.units i := by
  rintro s rfl
  have hinv := strings_run hkept
  refine ⟨fun i hi => readsReference hinv hi, fun k hk => ?_, fun op hop i hi => ?_⟩
  · obtain ⟨heap, hret, hkeeps, hlives⟩ := flatten_spec hinv hk
    exact ⟨heap, hret, fun i hi => readsReference hkeeps.strings ((hlives _).trans hi)⟩
  · cases op with
    | intern text =>
      obtain ⟨flat, hunits, hstep⟩ := step_intern hinv hop
      rw [hstep]
      exact internString_units hinv hunits hi
    | _ => exact (keeps_step hinv hop fun text heq => by cases heq).1.texts i hi

/-- A slice of a concatenation of leaves of both widths, hashed and flattened. -/
theorem strings_refine_mixedSlice :
    let ops : List StrOp := [.alloc ⟨.latin1 [0x61], none⟩, .alloc ⟨.utf16 [0xD800, 0x62], none⟩,
      .concat 0 1, .slice 2 1 2, .hash 3, .flatten 3]
    (Lib.run step new ops).ReadsReference 3 ∧
      (Lib.run step new ops).units 3 = [0xD800, 0x62] := by
  have hkept : Lib.StepsMeet step Kept new [.alloc ⟨.latin1 [0x61], none⟩,
      .alloc ⟨.utf16 [0xD800, 0x62], none⟩, .concat 0 1, .slice 2 1 2, .hash 3, .flatten 3] := by
    refine ⟨⟨trivial, rfl⟩, ⟨trivial, rfl⟩, ⟨?_, ?_⟩, ?_, ?_, ?_, trivial⟩
    · decide
    · decide
    · show isLive _ _ = true
      decide
    · show isLive _ _ = true
      decide
    · show isLive _ _ = true
      decide
  exact ⟨(strings_refine _ hkept _ rfl).1 3 (by decide), by decide⟩

end RopeState

end V12.Heap
