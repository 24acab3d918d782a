/-
V12.Heap.Interning — canonical strings over whole runs.

The canonical table files flat strings under the hash of their text, one for
each text. It roots its members, so no collection takes them and no call writes
another text over them: what `intern_string` once answered stands for its text
from then on.
-/
import V12.Heap.RopeRuns
import V12.Lib.Assoc

namespace V12.Heap

/-! ## §1 The table -/

def bucketOf (h : Heap) (hash : Nat) : List Nat := (h.internedStrings.lookup hash).getD []

variable {h : Heap} {units : Nat → List (BitVec 16)}

theorem mem_bucketOf {hash i : Nat} (hi : i ∈ h.bucketOf hash) :
    ∃ bucket, (hash, bucket) ∈ h.internedStrings ∧ i ∈ bucket := by
  unfold bucketOf at hi
  cases hlookup : h.internedStrings.lookup hash with
  | none => simp [hlookup] at hi
  | some bucket =>
    rw [hlookup, Option.getD_some] at hi
    exact ⟨bucket, Lib.mem_of_lookup hlookup, hi⟩

theorem Strings.bucket_alive (hinv : Strings h units) {hash i : Nat} (hi : i ∈ h.bucketOf hash) :
    h.isAlive (.strings, i) = true := by
  obtain ⟨bucket, hbucket, hmem⟩ := mem_bucketOf hi
  exact hinv.interned_alive hbucket hmem

theorem isFlat_of_flatUnits {s : V12Str} {u : List (BitVec 16)}
    (hu : s.storage.flatUnits = some u) : s.isFlat = true := by
  unfold V12Str.isFlat
  cases hstorage : s.storage with
  | latin1 bytes => rfl
  | utf16 leaf => rfl
  | cons l r len => rw [hstorage] at hu; cases hu
  | sliced p start len => rw [hstorage] at hu; cases hu

theorem lookup_filed (h : Heap) (hash : BitVec 32) (i key : Nat) :
    ((h.filed hash i).lookup key).getD [] =
      if key = hash.toNat then h.bucketOf key ++ [i] else h.bucketOf key := by
  unfold filed bucketOf
  by_cases hkey : key = hash.toNat
  · rw [if_pos hkey, hkey, List.lookup_cons_self, Option.getD_some]
  · have hne : (key == hash.toNat) = false := beq_false_of_ne hkey
    have hrest := Lib.lookup_filter_ne hash.toNat key h.internedStrings
    rw [if_neg hkey] at hrest
    rw [if_neg hkey, List.lookup_cons, hne, hrest]

/-! ## §2 The invariant -/

namespace RopeState

/-- The canonical table: flat strings under their hashes, one for a text, every answer among
them. -/
structure Canonical (s : RopeState) : Prop where
  strings : Strings s.heap s.units
  members : ∀ hash, ∀ i ∈ s.heap.bucketOf hash,
    Flat s.heap i ∧ hash = (fnv (s.units i)).toNat
  unique : ∀ hash, ∀ i ∈ s.heap.bucketOf hash, ∀ j ∈ s.heap.bucketOf hash,
    s.units i = s.units j → i = j
  answered : ∀ a ∈ s.answers, s.units a.2 = a.1 ∧ a.2 ∈ s.heap.bucketOf (fnv a.1).toNat

variable {s s' : RopeState}

theorem canonical_new : Canonical new :=
  ⟨strings_new, (fun hash i hi => by cases hi), (fun hash i hi => by cases hi),
    (fun a ha => by cases ha)⟩

/-- **Rule for the calls that do not intern.** -/
theorem Canonical.keeps (hinv : Canonical s) (hkeeps : Keeps s.heap s'.heap s.units s'.units)
    (hanswers : s'.answers = s.answers) : Canonical s' := by
  have hbucket (hash : Nat) : s'.heap.bucketOf hash = s.heap.bucketOf hash := by
    unfold bucketOf
    rw [hkeeps.interned]
  have hunits {hash i : Nat} (hi : i ∈ s.heap.bucketOf hash) : s'.units i = s.units i :=
    hkeeps.texts i (hinv.strings.bucket_alive hi)
  refine ⟨hkeeps.strings, fun hash i hi => ?_, fun hash i hi j hj heq => ?_, fun a ha => ?_⟩
  · have halive := hkeeps.strings.bucket_alive hi
    rw [hbucket] at hi
    obtain ⟨hflat, hkey⟩ := hinv.members hash i hi
    rw [hunits hi]
    exact ⟨hkeeps.flats i (hinv.strings.bucket_alive hi) halive hflat, hkey⟩
  · rw [hbucket] at hi hj
    rw [hunits hi, hunits hj] at heq
    exact hinv.unique hash i hi j hj heq
  · rw [hanswers] at ha
    obtain ⟨htext, hmem⟩ := hinv.answered a ha
    rw [hbucket, hunits hmem]
    exact ⟨htext, hmem⟩

/-- **Rule for an interning call**: a hit answers the member of that text, a miss files
a text no member has. -/
theorem Canonical.intern (hinv : Canonical s) {text : FlatText} {u : List (BitVec 16)}
    (hu : text.storage.flatUnits = some u) :
    let r := s.heap.internString (fnv u) text
    Canonical { s.made r.1 r.2 u with answers := (u, r.2) :: s.answers } := by
  intro r
  have hstrings : Strings r.1 (Function.update s.units r.2 u) := hinv.strings.internString hu
  have hold {hash i : Nat} (hi : i ∈ s.heap.bucketOf hash) :
      Function.update s.units r.2 u i = s.units i :=
    internString_units hinv.strings hu (hinv.strings.bucket_alive hi)
  cases hfound : s.heap.findInterned (fnv u).toNat text with
  | some i =>
    have hr : r = (s.heap, i) := internString_hit hfound
    obtain ⟨htext, -⟩ := findInterned_some hinv.strings hu hfound
    have hmem : i ∈ s.heap.bucketOf (fnv u).toNat := List.mem_of_find?_eq_some hfound
    have hsame : Function.update s.units r.2 u = s.units := by
      rw [hr, ← htext, Function.update_eq_self]
    refine ⟨hstrings, ?_, ?_, fun a ha => ?_⟩
    · show ∀ hash, ∀ j ∈ r.1.bucketOf hash,
        Flat r.1 j ∧ hash = (fnv (Function.update s.units r.2 u j)).toNat
      rw [hsame, hr]
      exact hinv.members
    · show ∀ hash, ∀ j ∈ r.1.bucketOf hash, ∀ k ∈ r.1.bucketOf hash,
        Function.update s.units r.2 u j = Function.update s.units r.2 u k → j = k
      rw [hsame, hr]
      exact hinv.unique
    · show Function.update s.units r.2 u a.2 = a.1 ∧ a.2 ∈ r.1.bucketOf (fnv a.1).toNat
      rw [hsame, hr]
      rcases List.mem_cons.mp ha with rfl | ha
      · rw [hr]
        exact ⟨htext, hmem⟩
      · exact hinv.answered a ha
  | none =>
    have hr := internString_miss hfound
    have htable (hash : Nat) : r.1.bucketOf hash =
        if hash = (fnv u).toNat then s.heap.bucketOf hash ++ [r.2] else s.heap.bucketOf hash := by
      show (r.1.internedStrings.lookup hash).getD [] = _
      rw [show r = _ from hr]
      exact lookup_filed s.heap (fnv u) _ hash
    -- a member of the new table is the handle filed, or was one
    have hcases {hash j : Nat} (hj : j ∈ r.1.bucketOf hash) :
        (hash = (fnv u).toNat ∧ j = r.2) ∨ j ∈ s.heap.bucketOf hash := by
      rw [htable] at hj
      split at hj
      case isTrue hkey =>
        rcases List.mem_append.mp hj with hj | hj
        · exact Or.inr hj
        · exact Or.inl ⟨hkey, List.mem_singleton.mp hj⟩
      case isFalse => exact Or.inr hj
    have hself : Function.update s.units r.2 u r.2 = u := Function.update_self _ _ _
    have hother {hash j : Nat} (hj : j ∈ s.heap.bucketOf hash) : s.units j ≠ u := by
      intro heq
      obtain ⟨hflat, hkey⟩ := hinv.members hash j hj
      rw [heq] at hkey
      rw [hkey] at hj
      exact findInterned_none hinv.strings hu hfound hj hflat (hinv.strings.bucket_alive hj) heq
    refine ⟨hstrings, fun hash j hj => ?_, fun hash j hj k hk heq => ?_, fun a ha => ?_⟩
    · show Flat r.1 j ∧ hash = (fnv (Function.update s.units r.2 u j)).toNat
      rcases hcases hj with ⟨hkey, rfl⟩ | hj'
      · rw [hself]
        refine ⟨⟨⟨text.storage, some (fnv u)⟩, ?_, isFlat_of_flatUnits hu⟩, hkey⟩
        rw [show r = _ from hr]
        exact get_alloc hinv.strings.sound.ledgers .strings _
      · obtain ⟨⟨t, ht, hflat⟩, hkey⟩ := hinv.members hash j hj'
        have hgrows := internString_grows hinv.strings.sound.ledgers (fnv u) text
        rw [hold hj']
        refine ⟨⟨t, ?_, hflat⟩, hkey⟩
        exact (hgrows.contents _ (hinv.strings.bucket_alive hj')).trans ht
    · rcases hcases hj with ⟨hkey, rfl⟩ | hj'
      · rcases hcases hk with ⟨-, rfl⟩ | hk'
        · rfl
        · exact absurd ((hold hk').symm.trans (heq.symm.trans hself)) (hother hk')
      · rcases hcases hk with ⟨-, rfl⟩ | hk'
        · exact absurd ((hold hj').symm.trans (heq.trans hself)) (hother hj')
        · exact hinv.unique hash j hj' k hk' ((hold hj').symm.trans (heq.trans (hold hk')))
    · show Function.update s.units r.2 u a.2 = a.1 ∧ a.2 ∈ r.1.bucketOf (fnv a.1).toNat
      rcases List.mem_cons.mp ha with rfl | ha
      · refine ⟨hself, ?_⟩
        rw [htable, if_pos rfl]
        exact List.mem_append_right _ (List.mem_singleton.mpr rfl)
      · obtain ⟨htext, hmem⟩ := hinv.answered a ha
        rw [hold hmem, htable]
        refine ⟨htext, ?_⟩
        split
        · exact List.mem_append_left _ hmem
        · exact hmem

/-- **Step rule.** -/
theorem canonical_step (hinv : Canonical s) {op : StrOp} (hkept : s.Kept op) :
    Canonical (s.step op) := by
  cases op with
  | intern text =>
    obtain ⟨flat, hunits, hstep⟩ := step_intern hinv.strings hkept
    rw [hstep]
    exact hinv.intern hunits
  | _ =>
    have hkeeps := keeps_step hinv.strings hkept fun text heq => by cases heq
    exact hinv.keeps hkeeps.1 hkeeps.2

/-- **Run rule.** -/
theorem canonical_run {ops : List StrOp} (hinv : Canonical s)
    (hkept : Lib.StepsMeet step Kept s ops) : Canonical (Lib.run step s ops) :=
  Lib.run_invariant (I := Canonical) (fun _ _ hs hk => canonical_step hs hk) hinv hkept

/-! ## §3 Answers over time -/

theorem answers_step (s : RopeState) (op : StrOp) : s.answers ⊆ (s.step op).answers := by
  unfold step
  cases hexec : s.exec op with
  | none => exact List.Subset.refl _
  | some s' =>
    rw [Option.getD_some]
    cases op with
    | gc op => cases hexec; exact List.Subset.refl _
    | alloc value => cases hexec; exact List.Subset.refl _
    | concat l r =>
      obtain ⟨r', -, rfl⟩ := Option.map_eq_some_iff.mp hexec
      exact List.Subset.refl _
    | slice p start len =>
      obtain ⟨r', -, rfl⟩ := Option.map_eq_some_iff.mp hexec
      split <;> exact List.Subset.refl _
    | flatten i =>
      obtain ⟨r', -, rfl⟩ := Option.map_eq_some_iff.mp hexec
      exact List.Subset.refl _
    | hash i =>
      obtain ⟨r', -, rfl⟩ := Option.map_eq_some_iff.mp hexec
      exact List.Subset.refl _
    | intern text =>
      obtain ⟨r', -, rfl⟩ := Option.map_eq_some_iff.mp hexec
      exact List.subset_cons_of_subset _ (List.Subset.refl _)

theorem answers_run (s : RopeState) (ops : List StrOp) :
    s.answers ⊆ (Lib.run step s ops).answers := by
  induction ops generalizing s with
  | nil => exact List.Subset.refl _
  | cons op ops ih => exact List.Subset.trans (answers_step s op) (ih (s.step op))

theorem Canonical.answer_text (hinv : Canonical s) {a : List (BitVec 16) × Nat}
    (ha : a ∈ s.answers) :
    s.isLive a.2 = true ∧ ∃ t, s.heap.str a.2 = some t ∧ t.storage.flatUnits = some a.1 := by
  obtain ⟨htext, hmem⟩ := hinv.answered a ha
  have halive := hinv.strings.bucket_alive hmem
  obtain ⟨⟨t, ht, hflat⟩, -⟩ := hinv.members _ a.2 hmem
  obtain ⟨n, hd⟩ := hinv.strings.texts a.2 halive
  rw [htext] at hd
  exact ⟨halive, t, ht, hd.flatUnits ht hflat⟩

/-- **Interning is canonical over every run**: an interning call returns; any two answers,
however far apart, are one handle exactly where the texts are equal; and what was answered
stands for its text ever after. -/
theorem interned_canonical (before after : List StrOp)
    (hkept : Lib.StepsMeet step Kept new (before ++ after)) :
    (∀ text, (Lib.run step new before).Owns text.storage →
      ∃ i, ((Lib.run step new before).exec (.intern text)).map answers =
        some ((refUnits (Lib.run step new before).units text.storage, i) ::
          (Lib.run step new before).answers)) ∧
    ∀ a ∈ (Lib.run step new before).answers,
      ((Lib.run step new (before ++ after)).isLive a.2 = true ∧
        ∃ t, (Lib.run step new (before ++ after)).heap.str a.2 = some t ∧
          t.storage.flatUnits = some a.1) ∧
      ∀ b ∈ (Lib.run step new (before ++ after)).answers, a.2 = b.2 ↔ a.1 = b.1 := by
  have hmeets := Lib.stepsMeet_append.mp hkept
  have hbefore : Canonical (Lib.run step new before) := canonical_run canonical_new hmeets.1
  have hafter : Canonical (Lib.run step new (before ++ after)) := canonical_run canonical_new hkept
  refine ⟨fun text howns => ?_, fun a ha => ?_⟩
  · obtain ⟨flat, hunits, hret⟩ := internOwned_eq (Owns.denotes hbefore.strings howns)
    rw [exec, hret]
    exact ⟨_, rfl⟩
  · have hlater : a ∈ (Lib.run step new (before ++ after)).answers := by
      rw [Lib.run_append]
      exact answers_run _ after ha
    refine ⟨hafter.answer_text hlater, fun b hb => ?_⟩
    obtain ⟨ha1, ha2⟩ := hafter.answered a hlater
    obtain ⟨hb1, hb2⟩ := hafter.answered b hb
    constructor
    · intro heq
      rw [← ha1, ← hb1, heq]
    · intro heq
      rw [← heq] at hb1 hb2
      exact hafter.unique _ a.2 ha2 b.2 hb2 (ha1.trans hb1.symm)

/-- One text in both widths, with a collection between. -/
theorem interned_canonical_widths :
    let before : List StrOp := [.intern ⟨.latin1 [0x61], none⟩]
    let after : List StrOp := [.gc .forceCollect, .alloc ⟨.latin1 [0x61], none⟩,
      .intern ⟨.utf16 [0x61], none⟩, .intern ⟨.utf16 [0x62], none⟩]
    (Lib.run step new (before ++ after)).answers = [([0x62], 2), ([0x61], 0), ([0x61], 0)] ∧
      (Lib.run step new (before ++ after)).isLive 0 = true := by
  have hkept : Lib.StepsMeet step Kept new
      ([.intern ⟨.latin1 [0x61], none⟩] ++ [.gc .forceCollect, .alloc ⟨.latin1 [0x61], none⟩,
        .intern ⟨.utf16 [0x61], none⟩, .intern ⟨.utf16 [0x62], none⟩]) :=
    ⟨trivial, ⟨trivial, trivial⟩, ⟨trivial, rfl⟩, trivial, trivial, trivial⟩
  have hanswers := (interned_canonical _ _ hkept).2 ([0x61], 0) (by decide)
  exact ⟨by decide, hanswers.1.1⟩

end RopeState

end V12.Heap
