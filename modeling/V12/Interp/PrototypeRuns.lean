/-
V12.Interp.PrototypeRuns — when the prototype graph stays acyclic.

Every writer ends in `setPrototype`, and rewiring keeps the graph acyclic
exactly when the object is not on the new prototype's chain. The
interpreter's routines and `Reflect.setPrototypeOf` look for it there;
`Object.setPrototypeOf`, the engine's internal method, a construction through
`new.target` and a generator's suspension do not: `sound_iff` says that a run
is sound exactly when none of these is asked to close a cycle.
-/
import V12.Interp.Prototypes

namespace V12.Interp.Prototypes

open Lib Lib.Chain

/-! ## §1 The graph of a heap -/

namespace Heap

variable {s : Heap} {h obj : Handle} {p : Option Handle}

theorem prototype_eq_some {a b : Handle} :
    s.prototype a = some b ↔ ∃ o, s.objects[a]? = some o ∧ o.prototype = some b := by
  simp [prototype, Option.bind_eq_some_iff]

theorem prototype_mem (a b : Handle) (hab : s.prototype a = some b) : b ∈ Finset.range s.size := by
  obtain ⟨o, ho, hb⟩ := prototype_eq_some.1 hab
  exact Finset.mem_range.2 (s.closed o (List.mem_of_getElem? ho) b hb)

theorem prototype_apply (a : Handle) :
    s.prototype a = (s.objects[a]?).bind (·.prototype) := rfl

theorem prototype_setPrototype (hh : h < s.size) (hp : ∀ q, p = some q → q < s.size) :
    (s.setPrototype h p).prototype = Function.update s.prototype h p := by
  funext a
  have hp' : ∀ q, p = some q → q < s.objects.length := hp
  simp only [setPrototype, dif_pos hp', prototype_apply, List.getElem?_modify]
  by_cases hah : h = a
  · subst hah
    have hlt : h < s.objects.length := hh
    simp [List.getElem?_eq_getElem hlt]
  · rw [Function.update_of_ne (Ne.symm hah), prototype_apply]
    cases s.objects[a]? <;> simp [hah]

theorem prototype_alloc (k : Kind) (hp : ∀ q, p = some q → q < s.size) :
    (s.alloc k p).prototype = Function.update s.prototype s.size p := by
  funext a
  have hp' : ∀ q, p = some q → q < s.objects.length := hp
  simp only [alloc, dif_pos hp', prototype_apply, size]
  rcases Nat.lt_trichotomy a s.objects.length with hlt | rfl | hgt
  · rw [Function.update_of_ne (Nat.ne_of_lt hlt), List.getElem?_append_left hlt, prototype_apply]
  · simp
  · have hle : s.objects.length ≤ a := Nat.le_of_lt hgt
    have hle' : (s.objects ++ [(⟨k, true, p⟩ : JsObject)]).length ≤ a := by
      simp only [List.length_append, List.length_singleton]
      exact hgt
    rw [Function.update_of_ne (Nat.ne_of_gt hgt), prototype_apply, List.getElem?_eq_none hle,
      List.getElem?_eq_none hle']

theorem size_alloc (k : Kind) (hp : ∀ q, p = some q → q < s.size) :
    (s.alloc k p).size = s.size + 1 := by
  have hp' : ∀ q, p = some q → q < s.objects.length := hp
  simp [alloc, size, dif_pos hp']

@[simp] theorem prototype_preventExtensions :
    (s.preventExtensions h).prototype = s.prototype := by
  funext a
  simp only [preventExtensions, prototype_apply, List.getElem?_modify]
  cases s.objects[a]? with
  | none => rfl
  | some o => by_cases hah : h = a <;> simp [hah]

theorem acyclic_setPrototype_iff (hac : s.Acyclic) (hh : h < s.size)
    (hp : ∀ q, p = some q → q < s.size) :
    (s.setPrototype h p).Acyclic ↔ ¬ Meets s.prototype p h := by
  unfold Acyclic
  rw [prototype_setPrototype hh hp]
  exact acyclic_update_iff prototype_mem hac

theorem acyclic_setPrototype_none (hac : s.Acyclic) (hh : h < s.size) :
    (s.setPrototype h none).Acyclic := by
  rw [acyclic_setPrototype_iff hac hh (by simp)]
  exact not_meets_none _ _

theorem not_meets_size (hp : ∀ q, p = some q → q < s.size) : ¬ Meets s.prototype p s.size := by
  rintro ⟨q, rfl, hq⟩
  rcases Relation.ReflTransGen.cases_tail hq with heq | ⟨b, _, hb⟩
  · exact Nat.lt_irrefl _ (heq ▸ hp q rfl)
  · exact Nat.lt_irrefl _ (Finset.mem_range.1 (prototype_mem b s.size hb))

theorem acyclic_alloc (hac : s.Acyclic) (k : Kind) (hp : ∀ q, p = some q → q < s.size) :
    (s.alloc k p).Acyclic := by
  unfold Acyclic
  rw [prototype_alloc k hp, acyclic_update_iff prototype_mem hac]
  exact not_meets_size hp

theorem acyclic_preventExtensions (hac : s.Acyclic) : (s.preventExtensions h).Acyclic := by
  unfold Acyclic
  rwa [prototype_preventExtensions]

/-! ## §2 Walks -/

/-- **Every walk ends**, whatever stops it. -/
theorem protoWalk_isSome (hac : s.Acyclic) (hit : Handle → Bool) (hh : h < s.size) :
    (s.protoWalk hit (some h)).isSome := by
  have hback : (walk s.prototype hit (Finset.range s.size).card (some h)).isSome :=
    walk_isSome prototype_mem hac (Finset.mem_range.2 hh)
  rwa [Finset.card_range] at hback

theorem protoWalk_guard (obj : Handle) (hac : s.Acyclic) (hp : ∀ q, p = some q → q < s.size) :
    (Meets s.prototype p obj ∧ s.protoWalk (· = obj) p = some (some obj)) ∨
      (¬ Meets s.prototype p obj ∧ s.protoWalk (· = obj) p = some none) := by
  have hsome : (s.protoWalk (· = obj) p).isSome := by
    cases p with
    | none => cases hn : s.size <;> simp [protoWalk, walk]
    | some q => exact protoWalk_isSome hac _ (hp q rfl)
  obtain ⟨r, hr⟩ := Option.isSome_iff_exists.1 hsome
  cases r with
  | some b =>
    obtain ⟨hmeets, hb⟩ := meets_of_walk hr
    obtain rfl : b = obj := by simpa using hb
    exact .inl ⟨hmeets, hr⟩
  | none =>
    refine .inr ⟨?_, hr⟩
    intro hmeets
    simpa using not_hit_of_walk hr hmeets

end Heap

/-! ## §3 What an operation asks for -/

/-- The object and the new prototype of a request that reaches an object
of its own; a proxy has no prototype to write. -/
def asksOf (s : Heap) (obj : Handle) (proto : Option Handle) : Option (Handle × Handle) :=
  if s.isA obj .proxy then none else proto.map (obj, ·)

def asksOfValues (s : Heap) (objV protoV : JsValue) : Option (Handle × Handle) :=
  objV.asObject.bind (asksOf s · protoV.asObject)

/-- The link that an operation asks for, between objects that exist. -/
def Op.asks (s : Heap) : Op → Option (Handle × Handle)
  | .objectSetPrototypeOf obj proto => asksOfValues s obj proto
  | .reflectSetPrototypeOf _ obj proto => asksOfValues s obj proto
  | .proxyTarget obj proto => asksOf s obj proto
  | .setPrototypeOpcode obj proto =>
    obj.asObject.bind fun o => proto.asObject.map (o, ·)
  | .internalMethod obj proto => asksOf s obj proto
  | .construct result callee newTarget proto =>
    if newTarget = callee then none
    else result.asObject.bind fun o => proto.map (o, ·)
  | .suspendYield gen env => env.map (gen, ·)
  | .regexpPrototype _ => none
  | .alloc _ _ => none
  | .preventExtensions _ => none

def WouldClose (s : Heap) (op : Op) : Prop :=
  op.Live s ∧ ∃ o p, op.asks s = some (o, p) ∧ Meets s.prototype (some p) o

/-- The entry point does not refuse a link for closing a cycle: it makes
any link it is asked for, or (the opcode, on an object that is not
extensible) says it has made it. -/
def Op.Unguarded (s : Heap) : Op → Prop
  | .objectSetPrototypeOf obj _ => routed s obj = none
  | .setPrototypeOpcode obj _ => obj.asObject.any (!s.extensible ·) = true
  | .internalMethod obj _ => s.extensible obj = true
  | .construct _ _ _ _ => True
  | .suspendYield _ _ => True
  | _ => False

/-- The result `r` of an operation on `s` that asks for `asked`: the graph
stays acyclic, and a link that closes a cycle is refused. -/
structure Guards (s : Heap) (asked : Option (Handle × Handle)) (r : Heap × Outcome) : Prop where
  acyclic : r.1.Acyclic
  refuses : ∀ o p, asked = some (o, p) → Meets s.prototype (some p) o → r.2.Refuses ∧ r.1 = s

section Routines

variable {s : Heap} {obj : Handle} {link : Option Handle} {objV proto : JsValue}

theorem guards_none (hac : s.Acyclic) (o : Outcome) : Guards s none (s, o) :=
  ⟨hac, by simp⟩

theorem guards_typeError (hac : s.Acyclic) (asked : Option (Handle × Handle)) (m : String) :
    Guards s asked (s, .typeError m) :=
  ⟨hac, fun _ _ _ _ => ⟨trivial, rfl⟩⟩

theorem guards_checked (hac : s.Acyclic) (hobj : obj < s.size)
    (hlink : ∀ q, link = some q → q < s.size) :
    Guards s (link.map (obj, ·)) (checkedSetPrototypeOf s obj link) := by
  unfold checkedSetPrototypeOf
  split
  · next hsame =>
    -- the prototype it has already cannot close a cycle
    refine ⟨hac, ?_⟩
    intro o p hask hmeets
    cases hl : link with
    | none => simp [hl] at hask
    | some q =>
      obtain ⟨rfl, rfl⟩ : obj = o ∧ q = p := by simpa [hl] using hask
      have hup : Up s.prototype obj q := by rw [Up, ← hsame, hl]
      exact absurd (.head' hup ((meets_some _).1 hmeets)) (hac obj)
  · split
    · exact ⟨hac, fun _ _ _ _ => ⟨trivial, rfl⟩⟩
    · rcases Heap.protoWalk_guard obj hac hlink with ⟨_, hwalk⟩ | ⟨hmeets, hwalk⟩
      · rw [hwalk]
        exact ⟨hac, fun _ _ _ _ => ⟨trivial, rfl⟩⟩
      · rw [hwalk]
        refine ⟨(Heap.acyclic_setPrototype_iff hac hobj hlink).2 hmeets, ?_⟩
        intro o p hask hm
        cases hl : link with
        | none => simp [hl] at hask
        | some q =>
          obtain ⟨rfl, rfl⟩ : obj = o ∧ q = p := by simpa [hl] using hask
          exact absurd hm (hl ▸ hmeets)

theorem guards_objectSetPrototypeOf (hac : s.Acyclic) (hobj : obj < s.size)
    (hlink : ∀ q, link = some q → q < s.size) :
    Guards s (asksOf s obj link) (objectSetPrototypeOf s obj link) := by
  unfold objectSetPrototypeOf asksOf
  split
  · exact guards_none hac _
  · exact guards_checked hac hobj hlink

theorem setProtoArg_ok (h : setProtoArg proto = .ok link) : link = proto.asObject := by
  cases proto <;> simp [setProtoArg, JsValue.asObject] at h ⊢
  all_goals exact h.symm

theorem routed_eq_some (h : routed s objV = some obj) : objV.asObject = some obj := by
  unfold routed at h
  exact (Option.filter_eq_some_iff.1 h).1

theorem not_proxy_of_routed (h : routed s objV = none) (hobj : objV.asObject = some obj) :
    s.isA obj .proxy = false := by
  unfold routed at h
  rw [hobj, Option.filter_eq_none_iff] at h
  have := h obj rfl
  simp only [Bool.or_eq_true, not_or, Bool.not_eq_true] at this
  exact this.1

theorem guards_callReflectSetPrototypeOf (hac : s.Acyclic) (this : JsValue)
    (hobj : ∀ o, objV.asObject = some o → o < s.size)
    (hproto : ∀ q, proto.asObject = some q → q < s.size) :
    Guards s (asksOfValues s objV proto) (callReflectSetPrototypeOf s this objV proto) := by
  unfold callReflectSetPrototypeOf
  split
  · next hrouted =>
    unfold engineReflectSetPrototypeOf
    split
    · exact guards_typeError hac _ _
    · split
      · exact guards_typeError hac _ _
      · next o ho =>
        have hask : asksOfValues s objV proto = proto.asObject.map (o, ·) := by
          simp [asksOfValues, asksOf, ho, not_proxy_of_routed hrouted ho]
        rw [hask]
        split
        · next hnull =>
          have hnone : Guards s ((none : Option Handle).map (o, ·)) (checkedSetPrototypeOf s o none) :=
            guards_checked hac (hobj o ho) (by simp)
          rw [hnull]
          exact hnone
        · split
          · exact guards_typeError hac _ _
          · next q hq =>
            rw [hq]
            exact guards_checked hac (hobj o ho) (by rw [← hq]; exact hproto)
  · next o hrouted =>
    have ho := routed_eq_some hrouted
    split
    · exact guards_typeError hac _ _
    · next link hlink =>
      have hl := setProtoArg_ok hlink
      have hask : asksOfValues s objV proto = asksOf s o link := by
        simp [asksOfValues, ho, hl]
      rw [hask]
      exact guards_objectSetPrototypeOf hac (hobj o ho) (hl ▸ hproto)

theorem guards_callObjectSetPrototypeOf (hac : s.Acyclic) (hrouted : routed s objV ≠ none)
    (hobj : ∀ o, objV.asObject = some o → o < s.size)
    (hproto : ∀ q, proto.asObject = some q → q < s.size) :
    Guards s (asksOfValues s objV proto) (callObjectSetPrototypeOf s objV proto) := by
  unfold callObjectSetPrototypeOf
  split
  · next hnone => exact absurd hnone hrouted
  · next o ho' =>
    have ho := routed_eq_some ho'
    split
    · exact guards_typeError hac _ _
    · next link hlink =>
      have hl := setProtoArg_ok hlink
      have hask : asksOfValues s objV proto = asksOf s o link := by
        simp [asksOfValues, ho, hl]
      rw [hask]
      have hguards := guards_objectSetPrototypeOf hac (hobj o ho) (hl ▸ hproto)
      split
      · next t ht =>
        rw [ht] at hguards
        refine ⟨hguards.acyclic, ?_⟩
        intro a p hap hmeets
        exact ⟨trivial, (hguards.refuses a p hap hmeets).2⟩
      · exact hguards

theorem guards_opSetPrototype (hac : s.Acyclic)
    (hext : ∀ o, objV.asObject = some o → s.extensible o = true)
    (hobj : ∀ o, objV.asObject = some o → o < s.size)
    (hproto : ∀ q, proto.asObject = some q → q < s.size) :
    Guards s (objV.asObject.bind fun o => proto.asObject.map (o, ·))
      (opSetPrototype s objV proto) := by
  unfold opSetPrototype
  split
  · exact guards_typeError hac _ _
  · next o ho =>
    have hextensible := hext o ho
    simp only [ho, hextensible, Bool.not_true, Bool.false_eq_true, if_false, Option.bind_some]
    split
    · next hnull =>
      subst hnull
      refine ⟨Heap.acyclic_setPrototype_none hac (hobj o ho), ?_⟩
      intro a p hask
      simp [JsValue.asObject] at hask
    · split
      · exact guards_typeError hac _ _
      · next q hq =>
        have hq' : ∀ r, some q = some r → r < s.size := hq ▸ hproto
        rcases Heap.protoWalk_guard o hac hq' with ⟨_, hwalk⟩ | ⟨hmeets, hwalk⟩
        · rw [hwalk]
          exact guards_typeError hac _ _
        · rw [hwalk]
          refine ⟨(Heap.acyclic_setPrototype_iff hac (hobj o ho) hq').2 hmeets, ?_⟩
          intro a p hask hm
          obtain ⟨rfl, rfl⟩ : o = a ∧ q = p := by simpa [hq] using hask
          exact absurd hm hmeets

theorem acyclic_setPrototype_of (hac : s.Acyclic) (hobj : obj < s.size)
    (hlink : ∀ q, link = some q → q < s.size)
    (hopen : ∀ q, link = some q → ¬ Meets s.prototype (some q) obj) :
    (s.setPrototype obj link).Acyclic := by
  rw [Heap.acyclic_setPrototype_iff hac hobj hlink]
  cases link with
  | none => exact not_meets_none _ _
  | some q => exact hopen q rfl

theorem acyclic_engineObjectSetPrototypeOf (hac : s.Acyclic)
    (hobj : ∀ o, objV.asObject = some o → o < s.size)
    (hproto : ∀ q, proto.asObject = some q → q < s.size)
    (hopen : ∀ o q, objV.asObject = some o → proto.asObject = some q →
      ¬ Meets s.prototype (some q) o) :
    (engineObjectSetPrototypeOf s objV proto).1.Acyclic := by
  unfold engineObjectSetPrototypeOf
  split
  · exact hac
  · next o ho =>
    split
    · exact Heap.acyclic_setPrototype_none hac (hobj o ho)
    · split
      · next q hq =>
        apply acyclic_setPrototype_of hac (hobj o ho)
        · rw [← hq]
          exact hproto
        · intro r hr
          exact hopen o r ho (hq.trans hr)
      · exact hac

theorem opSetPrototype_of_not_extensible (ho : objV.asObject = some obj)
    (hext : s.extensible obj = false) : (opSetPrototype s objV proto).1 = s := by
  simp only [opSetPrototype, ho, hext, Bool.not_false, if_true]
  split
  · rfl
  · split <;> rfl

theorem acyclic_adoptNewTargetPrototype (hac : s.Acyclic) {callee newTarget : JsValue}
    (hobj : ∀ o, objV.asObject = some o → o < s.size) (hlink : ∀ q, link = some q → q < s.size)
    (hopen : ∀ o q, newTarget ≠ callee → objV.asObject = some o → link = some q →
      ¬ Meets s.prototype (some q) o) :
    (adoptNewTargetPrototype s objV callee newTarget link).1.Acyclic := by
  unfold adoptNewTargetPrototype
  split
  · exact hac
  · next hne =>
    cases link with
    | none => exact hac
    | some q =>
      cases objV with
      | undefined => exact hac
      | null => exact hac
      | primitive => exact Heap.acyclic_alloc hac _ hlink
      | object o =>
        apply acyclic_setPrototype_of hac (hobj o rfl) hlink
        intro r hr
        exact hopen o r hne rfl hr

theorem acyclic_regexpPrototypeSurface (hac : s.Acyclic) (hobj : obj < s.size) :
    (regexpPrototypeSurface s obj).1.Acyclic := by
  unfold regexpPrototypeSurface
  split
  · exact hac
  · have hnone : ∀ q, (none : Option Handle) = some q → q < s.size := by simp
    have hsize := Heap.size_alloc .ordinary hnone
    apply acyclic_setPrototype_of (Heap.acyclic_alloc hac .ordinary hnone)
    · rw [hsize]
      exact Nat.lt_add_one_of_lt hobj
    · intro q hq
      obtain rfl : s.size = q := by simpa using hq
      rw [hsize]
      exact Nat.lt_add_one _
    · intro q hq hmeets
      obtain rfl : s.size = q := by simpa using hq
      -- the fresh object has no prototype
      rw [meets_some, Heap.prototype_alloc .ordinary hnone] at hmeets
      rcases Relation.ReflTransGen.cases_head hmeets with heq | ⟨b, hb, _⟩
      · exact Nat.lt_irrefl _ (heq ▸ hobj)
      · simp [Up] at hb

end Routines

/-! ## §4 Steps and runs -/

section Runs

variable {s : Heap} {op : Op}

/-- **Step.** An operation that is not an unguarded request to close a
cycle keeps the graph acyclic. -/
theorem acyclic_perform (hac : s.Acyclic) (hlive : op.Live s)
    (hguard : ¬ (op.Unguarded s ∧ WouldClose s op)) : (perform s op).1.Acyclic := by
  have hclose : op.Unguarded s → ∀ o p, op.asks s = some (o, p) →
      ¬ Meets s.prototype (some p) o := by
    intro hun o p hask hmeets
    exact hguard ⟨hun, hlive, o, p, hask, hmeets⟩
  cases op with
  | objectSetPrototypeOf obj proto =>
    have hobj : ∀ o, obj.asObject = some o → o < s.size :=
      fun o ho => hlive o (by simp [Op.handles, ho])
    have hproto : ∀ q, proto.asObject = some q → q < s.size :=
      fun q hq => hlive q (by simp [Op.handles, hq])
    by_cases hrouted : routed s obj = none
    · simp only [perform, callObjectSetPrototypeOf, hrouted]
      apply acyclic_engineObjectSetPrototypeOf hac hobj hproto
      intro o q ho hq
      apply hclose hrouted o q
      simp [Op.asks, asksOfValues, asksOf, ho, hq, not_proxy_of_routed hrouted ho]
    · exact (guards_callObjectSetPrototypeOf hac hrouted hobj hproto).acyclic
  | reflectSetPrototypeOf this obj proto =>
    refine (guards_callReflectSetPrototypeOf hac this ?_ ?_).acyclic
    · exact fun o ho => hlive o (by simp [Op.handles, ho])
    · exact fun q hq => hlive q (by simp [Op.handles, hq])
  | proxyTarget obj proto =>
    refine (guards_objectSetPrototypeOf hac (hlive obj (by simp [Op.handles])) ?_).acyclic
    exact fun q hq => hlive q (by simp [Op.handles, hq])
  | setPrototypeOpcode obj proto =>
    by_cases hext : ∃ o, obj.asObject = some o ∧ s.extensible o = false
    · obtain ⟨o, ho, hfalse⟩ := hext
      simpa only [perform, opSetPrototype_of_not_extensible ho hfalse] using hac
    · refine (guards_opSetPrototype hac ?_ ?_ ?_).acyclic
      · intro o ho
        rw [← Bool.not_eq_false]
        exact fun hfalse => hext ⟨o, ho, hfalse⟩
      · exact fun o ho => hlive o (by simp [Op.handles, ho])
      · exact fun q hq => hlive q (by simp [Op.handles, hq])
  | internalMethod obj proto =>
    simp only [perform, dispatchSetPrototypeOf, ordinarySetPrototypeOf]
    split
    · exact hac
    · next hproxy =>
      split
      · exact hac
      · next hext =>
        apply acyclic_setPrototype_of hac (hlive obj (by simp [Op.handles]))
        · exact fun q hq => hlive q (by simp [Op.handles, hq])
        · intro q hq
          apply hclose (by simpa [Op.Unguarded] using hext) obj q
          simp [Op.asks, asksOf, hproxy, hq]
  | construct result callee newTarget proto =>
    apply acyclic_adoptNewTargetPrototype hac
    · exact fun o ho => hlive o (by simp [Op.handles, ho])
    · exact fun q hq => hlive q (by simp [Op.handles, hq])
    · intro o q hne ho hq
      apply hclose trivial o q
      simp [Op.asks, hne, ho, hq]
  | suspendYield gen env =>
    apply acyclic_setPrototype_of hac (hlive gen (by simp [Op.handles]))
    · exact fun q hq => hlive q (by simp [Op.handles, hq])
    · intro q hq
      exact hclose trivial gen q (by simp [Op.asks, hq])
  | regexpPrototype ctor =>
    exact acyclic_regexpPrototypeSurface hac (hlive ctor (by simp [Op.handles]))
  | alloc kind proto =>
    exact Heap.acyclic_alloc hac kind fun q hq => hlive q (by simp [Op.handles, hq])
  | preventExtensions obj => exact Heap.acyclic_preventExtensions hac

theorem refuses_perform (hac : s.Acyclic) (hguard : ¬ op.Unguarded s) (hclose : WouldClose s op) :
    (perform s op).2.Refuses ∧ (perform s op).1 = s := by
  obtain ⟨hlive, o, p, hask, hmeets⟩ := hclose
  cases op with
  | objectSetPrototypeOf obj proto =>
    refine (guards_callObjectSetPrototypeOf hac hguard ?_ ?_).refuses o p hask hmeets
    · exact fun o ho => hlive o (by simp [Op.handles, ho])
    · exact fun q hq => hlive q (by simp [Op.handles, hq])
  | reflectSetPrototypeOf this obj proto =>
    refine (guards_callReflectSetPrototypeOf hac this ?_ ?_).refuses o p hask hmeets
    · exact fun o ho => hlive o (by simp [Op.handles, ho])
    · exact fun q hq => hlive q (by simp [Op.handles, hq])
  | proxyTarget obj proto =>
    have hobj := hlive obj (by simp [Op.handles])
    refine (guards_objectSetPrototypeOf hac hobj ?_).refuses o p hask hmeets
    exact fun q hq => hlive q (by simp [Op.handles, hq])
  | setPrototypeOpcode obj proto =>
    refine (guards_opSetPrototype hac ?_ ?_ ?_).refuses o p hask hmeets
    · intro a ha
      simpa [Op.Unguarded, ha] using hguard
    · exact fun o ho => hlive o (by simp [Op.handles, ho])
    · exact fun q hq => hlive q (by simp [Op.handles, hq])
  | internalMethod obj proto =>
    have hext : s.extensible obj = false := by simpa [Op.Unguarded] using hguard
    simp only [perform, dispatchSetPrototypeOf, ordinarySetPrototypeOf, hext]
    split <;> exact ⟨trivial, rfl⟩
  | construct result callee newTarget proto => exact absurd trivial hguard
  | suspendYield gen env => exact absurd trivial hguard
  | regexpPrototype ctor => simp [Op.asks] at hask
  | alloc kind proto => simp [Op.asks] at hask
  | preventExtensions obj => simp [Op.asks] at hask

theorem not_refuses_of_unguarded (hun : op.Unguarded s) (hclose : WouldClose s op) :
    ¬ (perform s op).2.Refuses := by
  obtain ⟨_, o, p, hask, _⟩ := hclose
  cases op with
  | objectSetPrototypeOf obj proto =>
    have hrouted : routed s obj = none := hun
    cases ho : obj.asObject with
    | none => simp [Op.asks, asksOfValues, ho] at hask
    | some a =>
      cases hq : proto.asObject with
      | none => simp [Op.asks, asksOfValues, asksOf, ho, hq] at hask
      | some q =>
        have hnull : proto ≠ .null := by
          intro h
          simp [h, JsValue.asObject] at hq
        simp [perform, callObjectSetPrototypeOf, hrouted, engineObjectSetPrototypeOf, ho, hq, hnull,
          Outcome.Refuses]
  | setPrototypeOpcode obj proto =>
    cases ho : obj.asObject with
    | none => simp [Op.asks, ho] at hask
    | some a =>
      have hext : s.extensible a = false := by simpa [Op.Unguarded, ho] using hun
      cases hq : proto.asObject with
      | none => simp [Op.asks, ho, hq] at hask
      | some q =>
        have hnull : proto ≠ .null := by
          intro h
          simp [h, JsValue.asObject] at hq
        simp [perform, opSetPrototype, ho, hq, hnull, hext, Outcome.Refuses]
  | internalMethod obj proto =>
    have hext : s.extensible obj = true := hun
    have hproxy : s.isA obj .proxy = false := by
      rw [← Bool.not_eq_true]
      intro h
      simp [Op.asks, asksOf, h] at hask
    simp [perform, dispatchSetPrototypeOf, ordinarySetPrototypeOf, hext, hproxy, Outcome.Refuses]
  | construct result callee newTarget proto =>
    have hne : newTarget ≠ callee := by
      intro h
      simp [Op.asks, h] at hask
    cases proto with
    | none => simp [Op.asks, hne] at hask
    | some q => cases result <;> simp [perform, adoptNewTargetPrototype, hne, Outcome.Refuses]
  | suspendYield gen env => simp [perform, suspendGenerator, Outcome.Refuses]
  | _ => exact absurd hun id

theorem acyclic_step (hac : s.Acyclic) (hguard : ¬ (op.Unguarded s ∧ WouldClose s op)) :
    (step s op).Acyclic := by
  unfold step
  split
  · next hlive => exact acyclic_perform hac hlive hguard
  · exact hac

/-- What holds of a run that keeps the prototype graph sound. -/
structure Sound (s : Heap) (ops : List Op) : Prop where
  /-- No object is on its own chain in a state that the run reaches. -/
  acyclic : ∀ done, done <+: ops → (run step s done).Acyclic
  /-- There, a walk up the prototypes comes back, whatever stops it. -/
  walks : ∀ done, done <+: ops → ∀ (hit : Handle → Bool) (h : Handle),
    h < (run step s done).size → ((run step s done).protoWalk hit (some h)).isSome
  /-- A step that would close a cycle is refused and changes nothing. -/
  refuses : StepsMeet step
    (fun t op => WouldClose t op → (perform t op).2.Refuses ∧ (perform t op).1 = t) s ops

theorem acyclic_run {ops : List Op} (hac : s.Acyclic)
    (hmeet : StepsMeet step (fun t op => ¬ (op.Unguarded t ∧ WouldClose t op)) s ops) :
    (run step s ops).Acyclic := by
  induction ops generalizing s with
  | nil => exact hac
  | cons op ops ih => exact ih (acyclic_step hac hmeet.1) hmeet.2

theorem refuses_run {ops : List Op} (hac : s.Acyclic)
    (hmeet : StepsMeet step (fun t op => ¬ (op.Unguarded t ∧ WouldClose t op)) s ops) :
    StepsMeet step
      (fun t op => WouldClose t op → (perform t op).2.Refuses ∧ (perform t op).1 = t) s ops := by
  induction ops generalizing s with
  | nil => trivial
  | cons op ops ih =>
    refine ⟨?_, ih (acyclic_step hac hmeet.1) hmeet.2⟩
    intro hclose
    exact refuses_perform hac (fun hun => hmeet.1 ⟨hun, hclose⟩) hclose

end Runs

/-- **The prototype graph over runs.** From an acyclic heap, a run stays
sound exactly when no step of it is an unguarded request to close a
cycle. -/
theorem sound_iff (s : Heap) (hac : s.Acyclic) (ops : List Op) :
    Sound s ops ↔ StepsMeet step (fun t op => ¬ (op.Unguarded t ∧ WouldClose t op)) s ops := by
  constructor
  · intro hsound
    apply hsound.refuses.imp
    intro t op hrefuse hbad
    exact not_refuses_of_unguarded hbad.1 hbad.2 (hrefuse hbad.2).1
  · intro hmeet
    have hreached : ∀ done, done <+: ops → (run step s done).Acyclic := by
      rintro done ⟨rest, rfl⟩
      exact acyclic_run hac (stepsMeet_append.1 hmeet).1
    exact
      { acyclic := hreached
        walks := fun done hdone hit _ => Heap.protoWalk_isSome (hreached done hdone) hit
        refuses := refuses_run hac hmeet }

def twoObjects : Heap :=
  { objects := [⟨.ordinary, true, none⟩, ⟨.ordinary, true, none⟩]
    closed := by decide }

theorem acyclic_twoObjects : twoObjects.Acyclic := by
  apply acyclic_of_ends
  intro a
  refine .intro a ?_
  intro b hb
  have hnone : twoObjects.prototype a = none := by
    rcases a with _ | _ | a <;> rfl
  exact absurd (hnone.symm.trans hb) (by simp)

/-- `Reflect.setPrototypeOf(a, b); Reflect.setPrototypeOf(b, a)` is sound:
the second call is refused. -/
theorem sound_iff_twoObjects :
    Sound twoObjects [.reflectSetPrototypeOf .undefined (.object 0) (.object 1),
      .reflectSetPrototypeOf .undefined (.object 1) (.object 0)] :=
  (sound_iff twoObjects acyclic_twoObjects _).2 ⟨fun h => h.1, fun h => h.1, trivial⟩

/-- `Object.setPrototypeOf(a, b); Object.setPrototypeOf(b, a)` closes the
cycle `a, b, a`. -/
theorem not_sound :
    ¬ ∀ s : Heap, s.Acyclic → ∀ ops, Sound s ops := by
  intro h
  have hsound := h twoObjects acyclic_twoObjects
    [.objectSetPrototypeOf (.object 0) (.object 1), .objectSetPrototypeOf (.object 1) (.object 0)]
  refine hsound.acyclic _ (List.prefix_refl _) 0 (.head (b := 1) ?_ (.single ?_))
  · unfold Up
    decide
  · unfold Up
    decide

end V12.Interp.Prototypes
