/-
V12.Heap.RopeTheorems — the string operations keep every text.

`Strings`: each live string denotes the units the reference gives it, and its
cached hash is their hash. Allocation adds a text, flattening and hashing
assign in place, sweeping and collecting drop nodes nothing live names; none of
them changes a text that stays.
-/
import V12.Heap.RopeWalk

namespace V12.Heap

open Lib.Rope (Node)

/-! ## §1 The invariant -/

/-- The live strings by their reference units. -/
structure Strings (h : Heap) (units : Nat → List (BitVec 16)) : Prop where
  sound : Sound h
  texts : ∀ i, h.isAlive (.strings, i) = true → ∃ n, Denotes h i (units i) n
  hashes : ∀ i s hash, h.isAlive (.strings, i) = true → h.str i = some s → s.hash = some hash →
    hash = fnv (units i)

variable {h h' : Heap} {units : Nat → List (BitVec 16)}
variable {s value : V12Str} {i n l r : Nat} {u : List (BitVec 16)}

theorem mem_children {c : Nat} :
    c ∈ s.storage.node.children ↔ ((.strings, c) : Ref) ∈ trace s := by
  cases hstorage : s.storage <;> simp [StrStorage.node, Node.children, trace, hstorage]

theorem Sound.child_alive (hs : Sound h) {c : Nat} {node : Node (BitVec 16)}
    (hnode : h.nodes i = some node) (hc : c ∈ node.children) : h.isAlive (.strings, c) = true := by
  obtain ⟨halive, s, hstr, rfl⟩ := nodes_eq_some.mp hnode
  exact hs.cells .strings i s halive hstr _ (List.mem_append_left _ (mem_children.mp hc))

theorem nodes_of_kept (hkeep : h'.isAlive (.strings, i) = h.isAlive (.strings, i))
    (hstr : h'.str i = h.str i) : h'.nodes i = h.nodes i := by
  unfold nodes
  rw [hkeep, hstr]

/-- **What stays alive with its cell keeps its text**: the rule of sweeps, collections and
calls on other spaces. -/
theorem Strings.carry (hinv : Strings h units) (hs' : Sound h')
    (hkeep : ∀ i, h'.isAlive (.strings, i) = true →
      h.isAlive (.strings, i) = true ∧ h'.str i = h.str i) : Strings h' units := by
  have hsame (i : Nat) (hi : h'.isAlive (.strings, i) = true) : h'.nodes i = h.nodes i :=
    nodes_of_kept (hi.trans (hkeep i hi).1.symm) (hkeep i hi).2
  refine ⟨hs', fun i hi => ?_, fun i s hash hi hs hhash => ?_⟩
  · obtain ⟨n, hd⟩ := hinv.texts i (hkeep i hi).1
    refine ⟨n, Lib.Rope.Denotes.transport hsame (fun j node c hj hnode hc => ?_) hd hi⟩
    exact hs'.child_alive ((hsame j hj).trans hnode) hc
  · rw [(hkeep i hi).2] at hs
    exact hinv.hashes i s hash (hkeep i hi).1 hs hhash

theorem Denotes.grow (hs : Sound h) (hgrow : Grows h h') (hd : Denotes h i u n) :
    Denotes h' i u n := by
  refine Lib.Rope.Denotes.transport (P := fun i => h.isAlive (.strings, i) = true) (fun j hj => ?_)
    (fun j node c _ hnode hc => hs.child_alive hnode hc) hd hd.alive
  exact nodes_of_kept ((hgrow.alive _ hj).trans hj.symm) (hgrow.contents _ hj)

/-! ## §2 Allocation -/

theorem OwnedDenotes.node {storage : StrStorage} (hs : Sound h) (hgrow : Grows h h')
    (hu : OwnedDenotes h storage u) (hnode : h'.nodes i = some storage.node) :
    ∃ n, Denotes h' i u n := by
  cases storage with
  | latin1 bytes =>
    cases hu
    exact ⟨1, .leaf hnode⟩
  | utf16 leaf =>
    cases hu
    exact ⟨1, .leaf hnode⟩
  | cons l r len =>
    obtain ⟨a, m, b, n, hl, hr, hlen, hcap, rfl⟩ := hu
    exact ⟨_, .cons hnode (hl.grow hs hgrow) (hr.grow hs hgrow) hlen hcap⟩
  | sliced p start len =>
    obtain ⟨a, n, hp, hbounds, hcap, rfl⟩ := hu
    exact ⟨_, .slice hnode (hp.grow hs hgrow) hbounds hcap⟩

theorem OwnedDenotes.cellLive (hu : OwnedDenotes h value.storage u) :
    h.CellLive .strings value := by
  intro r hr
  have htrace : r ∈ trace value := by
    rcases List.mem_append.mp hr with hr | hr
    · exact hr
    · cases hr
  unfold OwnedDenotes at hu
  cases hstorage : value.storage with
  | latin1 bytes => simp [trace, hstorage] at htrace
  | utf16 leaf => simp [trace, hstorage] at htrace
  | cons l r' len =>
    rw [hstorage] at hu
    obtain ⟨a, m, b, n, hl, hr', -⟩ := hu
    simp only [trace, hstorage, List.mem_cons, List.not_mem_nil, or_false] at htrace
    rcases htrace with rfl | rfl
    · exact hl.alive
    · exact hr'.alive
  | sliced p start len =>
    rw [hstorage] at hu
    obtain ⟨a, n, hp, -⟩ := hu
    simp only [trace, hstorage, List.mem_singleton] at htrace
    rw [htrace]
    exact hp.alive

theorem get_alloc (hl : Ledgers h) (space : Space) (value : Cell space) :
    (h.alloc space value).1.get (space, (h.alloc space value).2) = some value := by
  show ((h.setSpace space _).spaces space).slots[_]? = _
  rw [spaces_setSpace_self]
  exact (SpaceState.alloc_allocates (hl space) value).slot

theorem isAlive_alloc_strings (hl : Ledgers h) (value : V12Str)
    (hi : (h.alloc .strings value).1.isAlive (.strings, i) = true) :
    i = (h.alloc .strings value).2 ∨ h.isAlive (.strings, i) = true := by
  have ha := (SpaceState.alloc_allocates (hl .strings) value).alive i
  change ((h.setSpace .strings _).spaces .strings).isAlive i = true at hi
  rw [spaces_setSpace_self, ha] at hi
  split at hi
  case isTrue heq => exact Or.inl heq
  case isFalse => exact Or.inr hi

/-- **Allocation adds the text** and touches no other. -/
theorem Strings.alloc (hinv : Strings h units) (hu : OwnedDenotes h value.storage u)
    (hhash : ∀ hash, value.hash = some hash → hash = fnv u) :
    Strings (h.alloc .strings value).1
      (Function.update units (h.alloc .strings value).2 u) := by
  have hl := hinv.sound.ledgers
  have hgrow := alloc_grows hl hu.cellLive
  have hnew := isAlive_alloc hl .strings value
  have hget := get_alloc hl .strings value
  refine ⟨hinv.sound.grow (alloc_ledgers hl .strings value) hgrow, fun i hi => ?_,
    fun i s hash hi hs hh => ?_⟩
  · by_cases heq : i = (h.alloc .strings value).2
    · rw [heq, Function.update_self]
      exact hu.node hinv.sound hgrow (nodes_eq_some.mpr ⟨hnew, value, hget, rfl⟩)
    · rw [Function.update_of_ne heq]
      obtain ⟨n, hd⟩ := hinv.texts i ((isAlive_alloc_strings hl value hi).resolve_left heq)
      exact ⟨n, hd.grow hinv.sound hgrow⟩
  · by_cases heq : i = (h.alloc .strings value).2
    · rw [heq, Function.update_self]
      rw [heq] at hs
      obtain rfl : value = s := Option.some.inj (hget.symm.trans hs)
      exact hhash hash hh
    · rw [Function.update_of_ne heq]
      have hold := (isAlive_alloc_strings hl value hi).resolve_left heq
      have hsame : h.str i = some s := (hgrow.contents _ hold).symm.trans hs
      exact hinv.hashes i s hash hold hsame hh

theorem withPinnedStringRoots_alloc (h : Heap) (values : List Nat) (value : V12Str) :
    (h.withPinnedStringRoots values fun h => h.alloc .strings value) = h.alloc .strings value := by
  have htake : (h.roots ++ values.map JsValue.string).take h.roots.length = h.roots :=
    List.take_left
  show (({ (h.alloc .strings value).1 with
    roots := (h.roots ++ values.map JsValue.string).take h.roots.length } : Heap), _) = _
  rw [htake]
  rfl

/-! ## §3 Assignment in place -/

/-- **Assigning in place**: the same tree or the flat text, and a right hash. -/
theorem Strings.rewrite (hinv : Strings h units) {s' : V12Str}
    (halive : h.isAlive (.strings, i) = true) (hs : h.str i = some s)
    (hstorage : s'.storage = s.storage ∨ s'.storage.flatUnits = some (units i))
    (hhash : ∀ hash, s'.hash = some hash → hash = fnv (units i)) :
    Strings (h.write .strings i s') units := by
  have hself : (h.write .strings i s').str i = some s' := get_write_self halive s'
  have hother (j : Nat) (hj : j ≠ i) : (h.write .strings i s').str j = h.str j :=
    @get_write_of_ne .strings (.strings, j) i h s' fun heq => hj (Prod.mk.inj heq).2.symm
  have hlives (j : Nat) :
      (h.write .strings i s').isAlive (.strings, j) = h.isAlive (.strings, j) :=
    isAlive_write h .strings i s' _
  have hnodes (j : Nat) (hj : j ≠ i) : (h.write .strings i s').nodes j = h.nodes j :=
    nodes_of_kept (hlives j) (hother j hj)
  have hnode : (h.write .strings i s').nodes i = some s'.storage.node :=
    nodes_eq_some.mpr ⟨(hlives i).trans halive, s', hself, rfl⟩
  obtain ⟨m, hd⟩ := hinv.texts i halive
  refine ⟨?_, fun j hj => ?_, fun j t hash hj ht hh => ?_⟩
  · refine write_sound hinv.sound halive ?_
    rcases hstorage with hsame | hflat
    · intro r hr
      have htrace : trace s' = trace s := by simp only [trace, hsame]
      exact hinv.sound.cells .strings i s halive hs r (htrace ▸ hr)
    · exact (FlatText.mk s'.storage (by rw [hflat]; rfl)).cellLive h s'.hash
  · rw [hlives] at hj
    obtain ⟨n, hj⟩ := hinv.texts j hj
    rcases hstorage with hsame | hflat
    · refine ⟨n, Lib.Rope.Denotes.transport (P := fun _ => True) (fun k _ => ?_)
        (fun _ _ _ _ _ _ => trivial) hj trivial⟩
      by_cases hk : k = i
      · rw [hk, hnode, hsame]
        exact (nodes_eq_some.mpr ⟨halive, s, hs, rfl⟩).symm
      · exact hnodes k hk
    · have hleaf := StrStorage.node_leaf.mpr hflat
      exact Lib.Rope.Denotes.flatten hd (hnode.trans (congrArg some hleaf)) hnodes hj
  · rw [hlives] at hj
    by_cases hk : j = i
    · rw [hk] at ht ⊢
      obtain rfl : s' = t := Option.some.inj (hself.symm.trans ht)
      exact hhash hash hh
    · exact hinv.hashes j t hash hj ((hother j hk).symm.trans ht) hh

/-! ## §4 What a call keeps -/

def Flat (h : Heap) (i : Nat) : Prop := ∃ s, h.str i = some s ∧ s.isFlat = true

/-- What every call but interning does: texts stay, flat strings stay flat, and the
canonical table is left alone. -/
structure Keeps (h h' : Heap) (units units' : Nat → List (BitVec 16)) : Prop where
  strings : Strings h' units'
  texts : ∀ i, h.isAlive (.strings, i) = true → units' i = units i
  flats : ∀ i, h.isAlive (.strings, i) = true → h'.isAlive (.strings, i) = true → Flat h i →
    Flat h' i
  interned : h'.internedStrings = h.internedStrings

theorem Keeps.refl (hinv : Strings h units) : Keeps h h units units :=
  ⟨hinv, fun _ _ => rfl, fun _ _ _ hi => hi, rfl⟩

theorem Keeps.alloc (hinv : Strings h units) (hu : OwnedDenotes h value.storage u)
    (hhash : ∀ hash, value.hash = some hash → hash = fnv u) :
    Keeps h (h.alloc .strings value).1 units
      (Function.update units (h.alloc .strings value).2 u) := by
  have hdead := isAlive_alloc_before hinv.sound.ledgers .strings value
  refine ⟨hinv.alloc hu hhash, fun i hi => ?_, fun i hi _ ⟨s, hs, hflat⟩ => ?_, rfl⟩
  · refine Function.update_of_ne (fun heq => ?_) _ _
    rw [heq, hdead] at hi
    cases hi
  · exact ⟨s, ((alloc_grows hinv.sound.ledgers hu.cellLive).contents _ hi).trans hs, hflat⟩

theorem Keeps.rewrite (hinv : Strings h units) {s' : V12Str}
    (halive : h.isAlive (.strings, i) = true) (hs : h.str i = some s)
    (hstorage : s'.storage = s.storage ∨ s'.storage.flatUnits = some (units i))
    (hhash : ∀ hash, s'.hash = some hash → hash = fnv (units i)) :
    Keeps h (h.write .strings i s') units units := by
  refine ⟨hinv.rewrite halive hs hstorage hhash, fun _ _ => rfl, fun j hj _ ⟨t, ht, hflat⟩ => ?_,
    rfl⟩
  by_cases hji : j = i
  · subst hji
    refine ⟨s', get_write_self halive s', ?_⟩
    rcases hstorage with hsame | hunits
    · obtain rfl : t = s := Option.some.inj (ht.symm.trans hs)
      unfold V12Str.isFlat at hflat ⊢
      rw [hsame]
      exact hflat
    · unfold V12Str.isFlat
      cases hstore : s'.storage with
      | latin1 bytes => rfl
      | utf16 leaf => rfl
      | cons l r len => rw [hstore] at hunits; cases hunits
      | sliced p start len => rw [hstore] at hunits; cases hunits
  · refine ⟨t, ?_, hflat⟩
    exact (@get_write_of_ne .strings (.strings, j) i h s'
      fun heq => hji (Prod.mk.inj heq).2.symm).trans ht

/-! ## §5 Reading -/

theorem Denotes.fits (hd : Denotes h i u n) (hs : h.str i = some s) (hflat : s.isFlat = false) :
    u.length < u32Limit := by
  cases hd with
  | leaf hget =>
    obtain ⟨-, t, ht, hnode⟩ := nodes_eq_some.mp hget
    obtain rfl : s = t := Option.some.inj (hs.symm.trans ht)
    have hunits := StrStorage.node_leaf.mp hnode
    unfold V12Str.isFlat at hflat
    cases hstorage : s.storage with
    | latin1 bytes => simp [hstorage] at hflat
    | utf16 leaf => simp [hstorage] at hflat
    | cons l r len => rw [hstorage] at hunits; cases hunits
    | sliced p start len => rw [hstorage] at hunits; cases hunits
  | cons hget hl hr hlen hcap =>
    rw [List.length_append, ← hlen]
    exact hcap
  | slice hget hp hbounds hcap =>
    rw [List.length_take, List.length_drop]
    omega

theorem Denotes.flatUnits (hd : Denotes h i u n) (hs : h.str i = some s) (hflat : s.isFlat = true) :
    s.storage.flatUnits = some u := by
  have hcomposite {t : V12Str} (ht : h.str i = some t) (hfalse : t.isFlat = false) : False := by
    obtain rfl : s = t := Option.some.inj (hs.symm.trans ht)
    rw [hflat] at hfalse
    cases hfalse
  cases hd with
  | leaf hget =>
    obtain ⟨-, t, ht, hnode⟩ := nodes_eq_some.mp hget
    obtain rfl : s = t := Option.some.inj (hs.symm.trans ht)
    exact StrStorage.node_leaf.mp hnode
  | cons hget hl hr hlen hcap =>
    obtain ⟨-, t, ht, hnode⟩ := nodes_eq_some.mp hget
    exact (hcomposite ht (by rw [V12Str.isFlat, StrStorage.node_cons.mp hnode])).elim
  | slice hget hp hbounds hcap =>
    obtain ⟨-, t, ht, hnode⟩ := nodes_eq_some.mp hget
    exact (hcomposite ht (by rw [V12Str.isFlat, StrStorage.node_slice.mp hnode])).elim

/-- **`strings_equal` decides equality of the texts**, and never panics. -/
theorem stringsEqual_spec (hinv : Strings h units) {a b : Nat}
    (ha : h.isAlive (.strings, a) = true) (hb : h.isAlive (.strings, b) = true) :
    h.stringsEqual a b = some (decide (units a = units b)) := by
  obtain ⟨m, hda⟩ := hinv.texts a ha
  obtain ⟨n, hdb⟩ := hinv.texts b hb
  obtain ⟨sa, hsa, hlena⟩ := hda.len
  obtain ⟨sb, hsb, hlenb⟩ := hdb.len
  unfold stringsEqual
  by_cases hab : a = b
  · subst hab
    simp
  rw [if_neg hab]
  simp only [hsa, hsb, Option.bind_eq_bind, Option.bind_some]
  by_cases hlen : sa.len = sb.len
  · rw [if_neg (not_not_intro hlen)]
    by_cases hflat : (sa.isFlat && sb.isFlat) = true
    · rw [if_pos hflat]
      obtain ⟨hfa, hfb⟩ := Bool.and_eq_true_iff.mp hflat
      rw [flatUnitsEqual_iff (hda.flatUnits hsa hfa) (hdb.flatUnits hsb hfb)]
    · -- one is composite, so the common length fits
      rw [if_neg hflat]
      have hfits : (units a).length < u32Limit ∧ (units b).length < u32Limit := by
        rw [hlena, hlenb] at hlen
        rw [Bool.and_eq_true_iff, not_and_or, Bool.not_eq_true, Bool.not_eq_true] at hflat
        rcases hflat with hfa | hfb
        · have hfit := hda.fits hsa hfa
          exact ⟨hfit, hlen ▸ hfit⟩
        · have hfit := hdb.fits hsb hfb
          exact ⟨hlen ▸ hfit, hfit⟩
      obtain ⟨ta, hta, hua⟩ := materialize_resident hda hfits.1
      obtain ⟨tb, htb, hub⟩ := materialize_resident hdb hfits.2
      simp only [hta, htb, Option.bind_some, flatUnitsEqual_iff hua hub]
  · rw [if_pos hlen]
    have hne : units a ≠ units b := fun heq => hlen (by rw [hlena, hlenb, heq])
    simp [hne]

/-! ## §6 Flattening and hashing -/

/-- **`flatten` returns** and keeps every text. -/
theorem flatten_spec (hinv : Strings h units) (hi : h.isAlive (.strings, i) = true) :
    ∃ h', h.flatten i = some h' ∧ Keeps h h' units units ∧ ∀ r, h'.isAlive r = h.isAlive r := by
  obtain ⟨n, hd⟩ := hinv.texts i hi
  obtain ⟨s, hs, -⟩ := hd.len
  unfold flatten
  simp only [hs, Option.bind_eq_bind, Option.bind_some]
  cases hflat : s.isFlat with
  | true => exact ⟨h, rfl, Keeps.refl hinv, fun _ => rfl⟩
  | false =>
    obtain ⟨text, htext, hunits⟩ := materialize_resident hd (hd.fits hs hflat)
    refine ⟨h.write .strings i ⟨text.storage, s.hash⟩, ?_, ?_, isAlive_write h _ _ _⟩
    · simp only [htext, Bool.false_eq_true, if_false, Option.bind_some]
    · exact Keeps.rewrite hinv hi hs (Or.inr hunits) (fun hash hh => hinv.hashes i s hash hi hs hh)

/-- **What `string_hash` returns is the hash of the text**, and it returns where the length
fits. -/
theorem stringHash_spec (hinv : Strings h units) (hi : h.isAlive (.strings, i) = true) :
    ((units i).length < u32Limit → (h.stringHash i).isSome) ∧
      ∀ h' hash, h.stringHash i = some (h', hash) →
        hash = fnv (units i) ∧ Keeps h h' units units := by
  obtain ⟨n, hd⟩ := hinv.texts i hi
  obtain ⟨s, hs, hlen⟩ := hd.len
  unfold stringHash
  simp only [hs, Option.bind_eq_bind, Option.bind_some]
  cases hcached : s.hash with
  | some cached =>
    refine ⟨fun _ => rfl, fun h' hash hret => ?_⟩
    obtain ⟨rfl, rfl⟩ := Prod.mk.inj (Option.some.inj hret)
    exact ⟨hinv.hashes i s cached hi hs hcached, Keeps.refl hinv⟩
  | none =>
    by_cases hfit : (units i).length < u32Limit
    · obtain ⟨runs, hruns, hunits⟩ := walkLeaves_resident hd hfit
      have hash_eq := contentHash_units hruns
      rw [hunits] at hash_eq
      simp only [hash_eq, Option.bind_some]
      refine ⟨fun _ => rfl, fun h' hash hret => ?_⟩
      obtain ⟨rfl, rfl⟩ := Prod.mk.inj (Option.some.inj hret)
      refine ⟨rfl, Keeps.rewrite hinv hi hs (Or.inl rfl) fun hash hh => ?_⟩
      exact (Option.some.inj hh).symm
    · have hpanic := walkLeaves_resident_long hd (Nat.le_of_not_lt hfit)
      refine ⟨fun hlt => absurd hlt hfit, fun h' hash hret => ?_⟩
      rw [contentHash, hpanic] at hret
      cases hret

/-! ## §7 Concatenating and slicing -/

theorem ropeDepthFrom_denotes (hd : Denotes h i u n) :
    ∃ k, k < 2 ^ n ∧ ∀ depth maxDepth, ∃ deepest, ∀ fuel stack,
      h.ropeDepthFrom (k + fuel) ((i, depth) :: stack) maxDepth =
        h.ropeDepthFrom fuel stack deepest := by
  induction hd with
  | @leaf i u hget =>
    obtain ⟨-, s, hs, hnode⟩ := nodes_eq_some.mp hget
    refine ⟨1, by decide, fun depth maxDepth => ⟨max maxDepth depth, fun fuel stack => ?_⟩⟩
    have hunits := StrStorage.node_leaf.mp hnode
    rw [Nat.add_comm 1 fuel, ropeDepthFrom]
    cases hstorage : s.storage with
    | latin1 bytes => simp only [hs, hstorage]
    | utf16 leaf => simp only [hs, hstorage]
    | cons l r len => rw [hstorage] at hunits; cases hunits
    | sliced p start len => rw [hstorage] at hunits; cases hunits
  | @cons i l r len u v m n hget hl hr hlen hcap ihl ihr =>
    obtain ⟨-, s, hs, hnode⟩ := nodes_eq_some.mp hget
    obtain ⟨kl, hkl, hleft⟩ := ihl
    obtain ⟨kr, hkr, hright⟩ := ihr
    refine ⟨kr + kl + 1, ?_, fun depth maxDepth => ?_⟩
    · have hm := Nat.pow_le_pow_right (by decide : 0 < 2) (Nat.le_max_left m n)
      have hn := Nat.pow_le_pow_right (by decide : 0 < 2) (Nat.le_max_right m n)
      rw [Nat.pow_succ]
      omega
    · obtain ⟨d, hd⟩ := hright (depth + 1) (max maxDepth depth)
      obtain ⟨d', hd'⟩ := hleft (depth + 1) d
      refine ⟨d', fun fuel stack => ?_⟩
      rw [Nat.add_right_comm, ropeDepthFrom]
      simp only [hs, StrStorage.node_cons.mp hnode]
      rw [Nat.add_assoc, hd, hd']
  | @slice i p start len u n hget hp hbounds hcap ih =>
    obtain ⟨-, s, hs, hnode⟩ := nodes_eq_some.mp hget
    obtain ⟨k, hk, hparent⟩ := ih
    refine ⟨k + 1, ?_, fun depth maxDepth => ?_⟩
    · rw [Nat.pow_succ]
      omega
    · obtain ⟨d, hd⟩ := hparent (depth + 1) (max maxDepth depth)
      refine ⟨d, fun fuel stack => ?_⟩
      rw [Nat.add_right_comm, ropeDepthFrom]
      simp only [hs, StrStorage.node_slice.mp hnode]
      exact hd fuel stack

theorem ropeDepth_isSome (hd : Denotes h i u n) :
    (h.ropeDepth i).isSome := by
  obtain ⟨k, hk, hwalk⟩ := ropeDepthFrom_denotes hd
  obtain ⟨d, hwalk⟩ := hwalk 1 0
  have hpow := Nat.pow_le_pow_right (by decide : 0 < 2) hd.height_le
  unfold ropeDepth
  have hsplit : 2 ^ (h.spaces .strings).slots.length =
      k + (2 ^ (h.spaces .strings).slots.length - k) := by omega
  rw [hsplit, hwalk]
  cases 2 ^ (h.spaces .strings).slots.length - k <;> rfl

theorem flattensEagerly_isSome (hd : Denotes h i u n) (total : Nat) :
    ∃ eager, h.flattensEagerly i total = some eager := by
  unfold flattensEagerly
  split
  · exact ⟨_, rfl⟩
  · obtain ⟨depth, hdepth⟩ := Option.isSome_iff_exists.mp (ropeDepth_isSome hd)
    exact ⟨_, by rw [hdepth]; rfl⟩

theorem Keeps.trans {h₁ h₂ h₃ : Heap} {u₁ u₂ u₃ : Nat → List (BitVec 16)}
    (h₁₂ : Keeps h₁ h₂ u₁ u₂) (h₂₃ : Keeps h₂ h₃ u₂ u₃)
    (hlives : ∀ r, h₁.isAlive r = true → h₂.isAlive r = true) : Keeps h₁ h₃ u₁ u₃ :=
  ⟨h₂₃.strings, fun i hi => (h₂₃.texts i (hlives _ hi)).trans (h₁₂.texts i hi),
    fun i hi hi' hflat => h₂₃.flats i (hlives _ hi) hi' (h₁₂.flats i hi (hlives _ hi) hflat),
    h₂₃.interned.trans h₁₂.interned⟩

theorem concat_length (hinv : Strings h units) (hl : h.isAlive (.strings, l) = true)
    (hr : h.isAlive (.strings, r) = true) :
    (do
      let leftLen ← (← h.str l).lenU32
      let rightLen ← (← h.str r).lenU32
      checkedAdd leftLen rightLen) =
      if (units l).length + (units r).length < u32Limit then
        some ((units l).length + (units r).length)
      else none := by
  obtain ⟨m, hdl⟩ := hinv.texts l hl
  obtain ⟨n, hdr⟩ := hinv.texts r hr
  obtain ⟨sl, hsl, hlenl⟩ := hdl.len
  obtain ⟨sr, hsr, hlenr⟩ := hdr.len
  simp only [hsl, hsr, V12Str.lenU32, checkedAdd, hlenl, hlenr, Option.bind_eq_bind,
    Option.bind_some]
  by_cases hfit : (units l).length + (units r).length < u32Limit
  · rw [if_pos (show (units l).length < u32Limit by omega),
      if_pos (show (units r).length < u32Limit by omega), if_pos hfit]
    simp only [Option.bind_some, if_pos hfit]
  · rw [if_neg hfit]
    by_cases hleft : (units l).length < u32Limit
    · rw [if_pos hleft]
      by_cases hright : (units r).length < u32Limit
      · simp only [if_pos hright, Option.bind_some, if_neg hfit]
      · simp only [if_neg hright, Option.bind_some, Option.bind_none]
    · simp only [if_neg hleft, Option.bind_none]

theorem concat_eq (h : Heap) (l r : Nat) : h.concat l r =
    (do
      let leftLen ← (← h.str l).lenU32
      let rightLen ← (← h.str r).lenU32
      checkedAdd leftLen rightLen).bind fun total =>
        let r := h.alloc .strings ⟨.cons l r total, none⟩
        (r.1.flattensEagerly r.2 total).bind fun eager =>
          if eager then (r.1.flatten r.2).bind fun flat => some (flat, r.2) else some r := by
  unfold concat
  simp only [withPinnedStringRoots_alloc, Option.bind_eq_bind, Option.bind_assoc]

/-- **`concat` returns the concatenation where its length fits.** -/
theorem concat_spec (hinv : Strings h units) (hl : h.isAlive (.strings, l) = true)
    (hr : h.isAlive (.strings, r) = true) (hfit : (units l).length + (units r).length < u32Limit) :
    ∃ h' i, h.concat l r = some (h', i) ∧ h'.isAlive (.strings, i) = true ∧
      Keeps h h' units (Function.update units i (units l ++ units r)) := by
  obtain ⟨m, hdl⟩ := hinv.texts l hl
  obtain ⟨n, hdr⟩ := hinv.texts r hr
  have hl' := hinv.sound.ledgers
  -- the node allocated for the result
  have hvalue : OwnedDenotes h (.cons l r ((units l).length + (units r).length))
      (units l ++ units r) := ⟨_, m, _, n, hdl, hdr, rfl, hfit, rfl⟩
  have hkeeps : Keeps h _ units _ := @Keeps.alloc h units ⟨_, none⟩ _ hinv hvalue
    fun hash hh => by cases hh
  have halive := isAlive_alloc hl' .strings
    ⟨.cons l r ((units l).length + (units r).length), none⟩
  obtain ⟨k, hnew⟩ := hkeeps.strings.texts _ halive
  obtain ⟨eager, heager⟩ := flattensEagerly_isSome hnew ((units l).length + (units r).length)
  rw [concat_eq, concat_length hinv hl hr, if_pos hfit]
  simp only [Option.bind_some, heager]
  cases eager with
  | false => exact ⟨_, _, rfl, halive, hkeeps⟩
  | true =>
    obtain ⟨flat, hflat, hkept, hlives⟩ := flatten_spec hkeeps.strings halive
    refine ⟨flat, _, by rw [hflat]; rfl, (hlives _).trans halive, hkeeps.trans hkept ?_⟩
    exact (alloc_grows hl' hvalue.cellLive).alive

theorem concat_panics (hinv : Strings h units) (hl : h.isAlive (.strings, l) = true)
    (hr : h.isAlive (.strings, r) = true) (hlong : u32Limit ≤ (units l).length + (units r).length) :
    h.concat l r = none := by
  rw [concat_eq, concat_length hinv hl hr, if_neg (Nat.not_lt_of_le hlong)]
  rfl

/-- **`slice_string` returns the window, or `None` where there is none**; it panics exactly
where it would measure a parent too long. -/
theorem sliceString_spec (hinv : Strings h units) {p : Nat} (hp : h.isAlive (.strings, p) = true)
    (start len : Nat) :
    (h.sliceString p start len = none ∧ start + len < u32Limit ∧ u32Limit ≤ (units p).length) ∨
    ((u32Limit ≤ start + len ∨ (units p).length < start + len) ∧
      h.sliceString p start len = some (h, none)) ∨
    (start + len ≤ (units p).length ∧ (units p).length < u32Limit ∧
      ∃ h' i, h.sliceString p start len = some (h', some i) ∧ h'.isAlive (.strings, i) = true ∧
        Keeps h h' units (Function.update units i (((units p).drop start).take len))) := by
  obtain ⟨n, hd⟩ := hinv.texts p hp
  obtain ⟨s, hs, hlen⟩ := hd.len
  unfold sliceString
  by_cases hstop : start + len < u32Limit
  · simp only [checkedAdd_of_lt hstop, hs, Option.bind_eq_bind, Option.bind_some,
      withPinnedStringRoots_alloc]
    by_cases hfit : (units p).length < u32Limit
    · simp only [lenU32_of_lt (show s.len < u32Limit by omega), Option.bind_some, hlen]
      by_cases hout : (units p).length < start + len
      · rw [if_pos hout]
        exact Or.inr (Or.inl ⟨Or.inr hout, rfl⟩)
      · rw [if_neg hout]
        have hvalue : OwnedDenotes h (.sliced p start len) (((units p).drop start).take len) :=
          ⟨_, n, hd, Nat.le_of_not_lt hout, hfit, rfl⟩
        refine Or.inr (Or.inr ⟨Nat.le_of_not_lt hout, hfit, _, _, rfl, ?_, ?_⟩)
        · exact isAlive_alloc hinv.sound.ledgers .strings _
        · exact @Keeps.alloc h units ⟨_, none⟩ _ hinv hvalue fun hash hh => by cases hh
    · have hpanic : s.lenU32 = none := if_neg (by rw [hlen]; exact hfit)
      simp only [hpanic, Option.bind_none]
      exact Or.inl ⟨trivial, hstop, Nat.le_of_not_lt hfit⟩
  · rw [show checkedAdd start len = none from if_neg hstop]
    exact Or.inr (Or.inl ⟨Or.inl (Nat.le_of_not_lt hstop), rfl⟩)

end V12.Heap
