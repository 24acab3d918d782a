/-
V12.Bccompiler.LiteralTheorems — which object literals are the left fold of
their entries.

Three questions: whether keys are evaluated in place (`evaluation_iff`), whether
an emission defines what its entries define (`defines_iff`), and, when all do,
whether the order of the emissions tells a difference (`settle_iff`).
-/
import V12.Bccompiler.Literal

namespace V12.Literal

open V12.Heap (PropKey JsValue)
open V12.Named (Inherited Answer)

variable {entries : List Entry}

/-! ## §1 Evaluation -/

theorem converted_of_not_runs {key : Key} (i : Nat) (h : key.runs = false) :
    key.converted i = [] := by
  rw [Key.converted, h]
  rfl

theorem plain_of_events {key : Key} {i : Nat} {rest rest' : List Event}
    (h : Event.body i :: rest = key.converted i ++ Event.body i :: rest') :
    key.runs = false ∧ rest = rest' := by
  unfold Key.converted at h
  cases hruns : key.runs with
  | true =>
    rw [if_pos hruns] at h
    cases h
  | false =>
    rw [if_neg (by rw [hruns]; decide), List.nil_append] at h
    exact ⟨rfl, (List.cons.inj h).2⟩

theorem first_addAccessor {ps : List AccessorPair} {text : String} {m : Member}
    {p : AccessorPair} (h : p ∈ addAccessor ps text m) :
    p.first = m ∨ ∃ q ∈ ps, p.first = q.first := by
  induction ps with
  | nil =>
    rw [addAccessor, List.mem_singleton] at h
    exact .inl (h ▸ rfl)
  | cons q ps ih =>
    rw [addAccessor] at h
    split at h
    · rcases List.mem_cons.mp h with rfl | hin
      · exact .inr ⟨q, List.mem_cons_self, rfl⟩
      · exact .inr ⟨p, List.mem_cons_of_mem q hin, rfl⟩
    · rcases List.mem_cons.mp h with rfl | hin
      · exact .inr ⟨p, List.mem_cons_self, rfl⟩
      · rcases ih hin with hm | ⟨r, hr, heq⟩
        · exact .inl hm
        · exact .inr ⟨r, List.mem_cons_of_mem q hr, heq⟩

theorem plainKey_of_inPlace {i : Nat} {accessors : List AccessorPair}
    (h : evaluation entries i accessors = inPlace entries i) :
    ∀ e ∈ entries, e.plainKey = true := by
  induction entries generalizing i accessors with
  | nil =>
    intro e he
    cases he
  | cons e es ih =>
    suffices hhead : e.plainKey = true ∧
        ∃ accessors', evaluation es (i + 1) accessors' = inPlace es (i + 1) by
      obtain ⟨hplain, accessors', hrest⟩ := hhead
      intro e' he'
      rcases List.mem_cons.mp he' with rfl | hin
      · exact hplain
      · exact ih hrest e' hin
    cases e with
    | data e =>
      cases e with
      | prop key inherited =>
        rw [evaluation, inPlace, List.append_assoc, List.append_assoc] at h
        have hevents := List.append_cancel_left h
        rw [List.cons_append] at hevents
        obtain ⟨hruns, hrest⟩ := plain_of_events hevents
        rw [converted_of_not_runs i hruns, List.nil_append] at hrest
        exact ⟨by rw [Entry.plainKey, hruns]; rfl, accessors, hrest⟩
      | proto inherited => exact ⟨rfl, accessors, (List.cons.inj h).2⟩
      | spread copied own once => exact ⟨rfl, accessors, (List.cons.inj h).2⟩
    | accessor key half =>
      rw [evaluation, inPlace, List.append_assoc] at h
      obtain ⟨hruns, hrest⟩ := plain_of_events (List.append_cancel_left h)
      exact ⟨by rw [Entry.plainKey, hruns]; rfl, _, hrest⟩

theorem inPlace_of_plainKey (h : ∀ e ∈ entries, e.plainKey = true) {i : Nat}
    {accessors : List AccessorPair} (hfirst : ∀ p ∈ accessors, p.first.key.runs = false) :
    evaluation entries i accessors = inPlace entries i := by
  induction entries generalizing i accessors with
  | nil =>
    rw [evaluation, inPlace, List.flatMap_eq_nil_iff]
    exact fun p hp => converted_of_not_runs _ (hfirst p hp)
  | cons e es ih =>
    have hplain := h e List.mem_cons_self
    have hrest := fun {accessors} => @ih (fun e' he' => h e' (List.mem_cons_of_mem e he'))
      (i + 1) accessors
    cases e with
    | data e =>
      cases e with
      | prop key inherited =>
        have hruns : key.runs = false := Bool.not_eq_true' _ ▸ hplain
        rw [evaluation, inPlace, hrest hfirst, converted_of_not_runs i hruns, List.append_nil,
          List.append_assoc]
        rfl
      | proto inherited => rw [evaluation, inPlace, hrest hfirst]
      | spread copied own once => rw [evaluation, inPlace, hrest hfirst]
    | accessor key half =>
      have hruns : key.runs = false := Bool.not_eq_true' _ ▸ hplain
      rw [evaluation, inPlace, hrest, converted_of_not_runs i hruns, List.append_nil]
      intro p hp
      rcases first_addAccessor hp with hm | ⟨q, hq, heq⟩
      · rw [hm]
        exact hruns
      · rw [heq]
        exact hfirst q hq

/-- **Keys are evaluated in place exactly if no conversion makes calls.** -/
theorem evaluation_iff (entries : List Entry) :
    evaluation entries 0 [] = inPlace entries 0 ↔ ∀ e ∈ entries, e.plainKey = true :=
  ⟨plainKey_of_inPlace, fun h => inPlace_of_plainKey h fun p hp => by cases hp⟩

/-! ## §2 One emission -/

@[simp] theorem apply_data (own : Option Own) (v : JsValue) :
    Definition.apply own (.data v) = .data v := by
  cases own <;> rfl

theorem apply_half (getter setter : Option Nat) (h : Half) (f : Nat) :
    Definition.apply (some (.accessor getter setter)) (.half h f) =
      .accessor (if h = .getter then some f else getter)
        (if h = .setter then some f else setter) := by
  cases h <;> rfl

theorem half_apply (own : Option Own) (h h' : Half) (f : Nat) :
    (Definition.apply own (.half h f)).half h' = if h = h' then some f else ownHalf own h' := by
  cases h <;> cases h' <;> rfl

def constant (v : JsValue) (f : Nat) : Values := ⟨fun _ => v, fun _ _ => v, fun _ => f⟩

namespace Object

theorem own_put (o : Object) (key k : PropKey) (p : Own) :
    (o.put key p).own k = if k = key then some p else o.own k :=
  Lib.lookup_alter (fun _ => p) key k o.props

theorem own_put_self (o : Object) (key : PropKey) (p : Own) : (o.put key p).own key = some p := by
  rw [own_put, if_pos rfl]

theorem own_put_of_ne (o : Object) {key k : PropKey} (h : k ≠ key) (p : Own) :
    (o.put key p).own k = o.own k := by
  rw [own_put, if_neg h]

theorem own_define (o : Object) (defs : List (PropKey × Definition)) (k : PropKey) :
    (o.define defs).own k = Lib.settle Definition.apply k (o.own k) defs :=
  Lib.lookup_build Definition.apply k defs o.props

theorem define_append (o : Object) (defs defs' : List (PropKey × Definition)) :
    o.define (defs ++ defs') = (o.define defs).define defs' := by
  unfold define
  rw [Lib.build_append]

def extend (o : Object) (more : List (PropKey × Own)) : Object :=
  { o with props := o.props ++ more }

theorem put_of_none {o : Object} {key : PropKey} (h : o.own key = none) (p : Own) :
    o.put key p = o.extend [(key, p)] := by
  unfold put extend
  rw [Lib.alter_of_lookup_none _ h]

theorem extend_nil (o : Object) : o.extend [] = o := by
  unfold extend
  rw [List.append_nil]

theorem extend_extend (o : Object) (more more' : List (PropKey × Own)) :
    (o.extend more).extend more' = o.extend (more ++ more') := by
  unfold extend
  rw [List.append_assoc]

theorem own_extend_of_some {o : Object} {k : PropKey} {p : Own} (h : o.own k = some p)
    (more : List (PropKey × Own)) : (o.extend more).own k = some p := by
  unfold own extend at *
  rw [List.lookup_append, h]
  rfl

theorem define_data (o : Object) (key : PropKey) (v : JsValue) :
    o.define [(key, .data v)] = o.put key (.data v) := by
  have hf : (fun a => Definition.apply a (.data v)) = fun _ => Own.data v :=
    funext fun a => apply_data a v
  unfold define put
  rw [Lib.build_cons, Lib.build_nil, hf]

end Object

section Steps

variable (intern : String → PropKey) (found : Nat → Option (Option Nat × Option Nat)) (o : Object)
variable {key k : PropKey} {v : JsValue}

theorem setProperty_done {o o' : Object} {inherited : Inherited}
    (h : o.setProperty key v inherited = (o', .done)) :
    o' = o.put key (.data v) ∧ o.accepts key inherited = true := by
  unfold Object.accepts
  unfold Object.setProperty at h
  cases hown : o.own key with
  | some p =>
    rw [hown] at h
    cases p with
    | data v' => exact ⟨(Prod.mk.inj h).1.symm, rfl⟩
    | accessor getter setter => cases setter <;> cases (Prod.mk.inj h).2
  | none =>
    rw [hown] at h
    cases inherited with
    | missing => exact ⟨(Prod.mk.inj h).1.symm, rfl⟩
    | data writable =>
      cases writable with
      | true => exact ⟨(Prod.mk.inj h).1.symm, rfl⟩
      | false => cases (Prod.mk.inj h).2
    | accessor setter => cases setter <;> cases (Prod.mk.inj h).2
    | proxy => cases (Prod.mk.inj h).2

theorem setProperty_eq {o : Object} {inherited : Inherited} (h : o.accepts key inherited = true)
    (v : JsValue) :
    o.setProperty key v inherited = (o.put key (.data v), .done) := by
  unfold Object.accepts at h
  unfold Object.setProperty
  cases hown : o.own key with
  | some p =>
    rw [hown] at h
    cases p with
    | data v' => rfl
    | accessor getter setter => cases h
  | none =>
    rw [hown] at h
    cases inherited with
    | missing => rfl
    | data writable =>
      cases writable with
      | true => rfl
      | false => cases h
    | accessor setter => cases h
    | proxy => cases h

theorem defines_prop_iff (i : Nat) (key : Key) (inherited : Inherited) :
    Defines intern found o (.entry i (.prop key inherited)) ↔
      Clear intern found o (.entry i (.prop key inherited)) := by
  constructor
  · intro h
    have hrun : ∀ v, o.setProperty (key.atRun intern) v inherited =
        (o.put key.named (.data v), .done) := by
      intro v
      rw [← Object.define_data]
      exact h (constant v 0)
    have hkey : key.atRun intern = key.named := by
      by_contra hne
      -- the property of the name does not get the value
      have hown : ∀ v, o.own key.named = some (.data v) := by
        intro v
        have hput := congrArg (fun o => Object.own o key.named) (setProperty_done (hrun v)).1
        simp only [Object.own_put_self, Object.own_put_of_ne o (Ne.symm hne)] at hput
        exact hput.symm
      have hzero := hown (.smi 0)
      rw [hown (.smi 1)] at hzero
      cases hzero
    have hpass := (setProperty_done (hrun (.smi 0))).2
    rw [hkey] at hpass
    exact ⟨hkey, hpass⟩
  · rintro ⟨hkey, hpass⟩ w
    show o.setProperty (key.atRun intern) (w.value i) inherited = _
    rw [hkey, setProperty_eq hpass, ← Object.define_data]
    rfl

theorem prototype_setProperty (key : PropKey) (v : JsValue) (inherited : Inherited) :
    (o.setProperty key v inherited).1.prototype = o.prototype := by
  unfold Object.setProperty
  repeat' split
  all_goals rfl

theorem not_defines_proto (i : Nat) (inherited : Inherited) :
    ¬ Defines intern found o (.entry i (.proto inherited)) := by
  intro h
  have hproto : ∀ v, isPrototype v = true → o.prototype = some v := by
    intro v hv
    have hrun := congrArg (fun r => Object.prototype r.1) (h (constant v 0))
    have hset : (DataEntry.define (constant v 0) i o (.proto inherited)).prototype = some v := by
      rw [DataEntry.define]
      show (if isPrototype v = true then _ else _ : Object).prototype = _
      rw [if_pos hv]
      rfl
    exact (prototype_setProperty o _ _ _).symm.trans (hrun.trans hset)
  have hnull := hproto .null rfl
  rw [hproto (.object 0) rfl] at hnull
  cases hnull

theorem addCopy_new (h : o.own key = none) (v : JsValue) :
    o.addCopy key v = o.extend [(key, .data v)] := by
  rw [Object.addCopy, h]
  exact Object.put_of_none h _

/-- Copies of keys that are new, one each, come to be properties. -/
theorem mergeObject_new {copies : List (PropKey × JsValue)}
    (hnew : ∀ c ∈ copies, o.own c.1 = none) (once : (copies.map Prod.fst).Nodup) :
    o.mergeObject copies = o.extend (copies.map fun c => (c.1, .data c.2)) := by
  induction copies generalizing o with
  | nil => exact (Object.extend_nil o).symm
  | cons c copies ih =>
    obtain ⟨hc, hrest⟩ := List.nodup_cons.mp once
    have hstep : o.mergeObject (c :: copies) = (o.addCopy c.1 c.2).mergeObject copies := rfl
    rw [hstep, ih _ ?_ hrest, addCopy_new o (hnew c List.mem_cons_self), Object.extend_extend]
    · rfl
    · intro e he
      have hne : e.1 ≠ c.1 := fun heq => hc (List.mem_map.mpr ⟨e, he, heq⟩)
      rw [addCopy_new o (hnew c List.mem_cons_self), ← Object.put_of_none
        (hnew c List.mem_cons_self), Object.own_put_of_ne o hne]
      exact hnew e (List.mem_cons_of_mem c he)

theorem shadowed_mergeObject (copies : List (PropKey × JsValue)) :
    o.shadowed.length ≤ (o.mergeObject copies).shadowed.length := by
  induction copies generalizing o with
  | nil => exact Nat.le_refl _
  | cons c copies ih =>
    refine Nat.le_trans ?_ (ih (o.addCopy c.1 c.2))
    unfold Object.addCopy
    split
    · simp [Object.shadow]
    · exact Nat.le_refl _

/-- A copy whose key is there, or was copied already, leaves a record behind the first. -/
theorem new_of_mergeObject {copies : List (PropKey × JsValue)}
    (h : (o.mergeObject copies).shadowed.length = o.shadowed.length) :
    (∀ c ∈ copies, o.own c.1 = none) ∧ (copies.map Prod.fst).Nodup := by
  induction copies generalizing o with
  | nil => simp
  | cons c copies ih =>
    have hstep : o.mergeObject (c :: copies) = (o.addCopy c.1 c.2).mergeObject copies := rfl
    rw [hstep] at h
    have hnone : o.own c.1 = none := by
      by_contra hsome
      obtain ⟨p, hp⟩ := Option.ne_none_iff_exists'.mp hsome
      have hle := shadowed_mergeObject (o.addCopy c.1 c.2) copies
      have hadd : (o.addCopy c.1 c.2).shadowed.length = o.shadowed.length + 1 := by
        rw [Object.addCopy, hp]
        simp [Object.shadow]
      omega
    have hadd := addCopy_new o hnone c.2
    obtain ⟨hnew, once⟩ := ih (o.addCopy c.1 c.2) (by rw [h, hadd]; rfl)
    rw [hadd, ← Object.put_of_none hnone] at hnew
    have hne : ∀ e ∈ copies, e.1 ≠ c.1 := by
      intro e he heq
      have hown := hnew e he
      rw [heq, Object.own_put_self] at hown
      cases hown
    refine ⟨fun e he => ?_, ?_⟩
    · rcases List.mem_cons.mp he with rfl | he
      · exact hnone
      · have hown := hnew e he
        rwa [Object.own_put_of_ne o (hne e he)] at hown
    · refine List.nodup_cons.mpr ⟨fun hmem => ?_, once⟩
      obtain ⟨e, he, heq⟩ := List.mem_map.mp hmem
      exact hne e he heq

theorem settle_data {defs : List (PropKey × Definition)} (hdefs : ∀ d ∈ defs, d.2 = .data v)
    (hk : k ∈ defs.map Prod.fst) (own : Option Own) :
    Lib.settle Definition.apply k own defs = some (.data v) := by
  have hstay : ∀ ds : List (PropKey × Definition), (∀ d ∈ ds, d.2 = .data v) →
      Lib.settle Definition.apply k (some (.data v)) ds = some (.data v) := by
    intro ds hds
    induction ds with
    | nil => rfl
    | cons d ds ih =>
      have hrest := ih fun d' hd' => hds d' (List.mem_cons_of_mem d hd')
      rw [Lib.settle_cons, hds d List.mem_cons_self, apply_data]
      split
      · exact hrest
      · exact hrest
  induction defs generalizing own with
  | nil => cases hk
  | cons d defs ih =>
    have hrest : ∀ d' ∈ defs, d'.2 = .data v := fun d' hd' => hdefs d' (List.mem_cons_of_mem d hd')
    rw [Lib.settle_cons, hdefs d List.mem_cons_self, apply_data]
    by_cases hd : d.1 = k
    · rw [if_pos hd]
      exact hstay defs hrest
    · rw [if_neg hd]
      refine ih hrest ?_ own
      rcases List.mem_cons.mp hk with heq | hin
      · exact absurd heq.symm hd
      · exact hin

theorem define_new (f : Nat → JsValue) {own : List (PropKey × Nat)}
    (hnew : ∀ c ∈ own, o.own c.1 = none) (once : (own.map Prod.fst).Nodup) :
    o.define (own.map fun c => (c.1, .data (f c.2))) =
      o.extend (own.map fun c => (c.1, .data (f c.2))) := by
  induction own generalizing o with
  | nil => exact (Object.extend_nil o).symm
  | cons c own ih =>
    obtain ⟨hc, hown⟩ := List.nodup_cons.mp once
    have hsplit : o.define ((c :: own).map fun c => (c.1, .data (f c.2))) =
        (o.put c.1 (.data (f c.2))).define (own.map fun c => (c.1, .data (f c.2))) := by
      rw [← Object.define_data, ← Object.define_append]
      rfl
    rw [hsplit, ih _ ?_ hown, Object.put_of_none (hnew c List.mem_cons_self),
      Object.extend_extend]
    · rfl
    · intro e he
      have hne : e.1 ≠ c.1 := fun heq => hc (List.mem_map.mpr ⟨e, he, heq⟩)
      rw [Object.own_put_of_ne o hne]
      exact hnew e (List.mem_cons_of_mem c he)

theorem defines_spread_iff (i : Nat) (copied own : List (PropKey × Nat))
    (once : (own.map Prod.fst).Nodup) :
    Defines intern found o (.entry i (.spread copied own once)) ↔
      Clear intern found o (.entry i (.spread copied own once)) := by
  constructor
  · intro h
    have hrun : ∀ f : Nat → JsValue, o.mergeObject (copied.map fun c => (c.1, f c.2)) =
        o.define (own.map fun c => (c.1, .data (f c.2))) :=
      fun f => (Prod.mk.inj (h ⟨fun _ => .null, fun _ => f, fun _ => 0⟩)).1
    -- no copy is shadowed, so the copied keys are new
    have hmerge : ∀ f : Nat → JsValue, o.mergeObject (copied.map fun c => (c.1, f c.2)) =
        o.extend (copied.map fun c => (c.1, .data (f c.2))) := by
      intro f
      have hlength := congrArg (fun o => o.shadowed.length) (hrun f)
      obtain ⟨hnew, once'⟩ := new_of_mergeObject o hlength
      rw [mergeObject_new o hnew once', List.map_map]
      rfl
    have hnew : ∀ c ∈ own, o.own c.1 = none := by
      intro c hc
      by_contra hsome
      -- the property that is there would get every value
      obtain ⟨p, hp⟩ := Option.ne_none_iff_exists'.mp hsome
      have hread : ∀ v : JsValue, some p = some (Own.data v) := by
        intro v
        have hown := congrArg (fun o => Object.own o c.1) (hrun fun _ => v)
        rw [hmerge fun _ => v, Object.own_extend_of_some hp, Object.own_define,
          settle_data (v := v)] at hown
        · exact hown
        · intro d hd
          obtain ⟨c', -, rfl⟩ := List.mem_map.mp hd
          rfl
        · exact List.mem_map.mpr ⟨_, List.mem_map.mpr ⟨c, hc, rfl⟩, rfl⟩
      have hzero := hread (.smi 0)
      rw [hread (.smi 1)] at hzero
      cases hzero
    refine ⟨hnew, ?_⟩
    have hsame := hrun fun n => .smi n
    rw [hmerge fun n => .smi n, define_new o (fun n => .smi n) hnew once] at hsame
    have hlist := List.append_cancel_left (congrArg Object.props hsame)
    refine List.map_injective_iff.mpr ?_ hlist
    intro a b hab
    simp only [Prod.mk.injEq, Own.data.injEq, JsValue.smi.injEq, Int.natCast_inj] at hab
    exact Prod.ext hab.1 hab.2
  · rintro ⟨hnew, rfl⟩ w
    show (o.mergeObject (copied.map fun c => (c.1, w.read i c.2)), Answer.done) = _
    have hnew' : ∀ c ∈ copied.map fun c => (c.1, w.read i c.2), o.own c.1 = none := by
      intro c hc
      obtain ⟨c', hc', rfl⟩ := List.mem_map.mp hc
      exact hnew c' hc'
    rw [mergeObject_new o hnew' (by rw [List.map_map]; exact once), List.map_map]
    exact congrArg (·, Answer.done) (define_new o (w.read i) hnew once).symm

def lastOf (h : Half) (ms : List Member) : Option Nat :=
  ((ms.filter fun m => m.half = h).getLast?).map Member.index

theorem lastOf_cons (h : Half) (m : Member) (ms : List Member) :
    lastOf h (m :: ms) = (lastOf h ms).or (if m.half = h then some m.index else none) := by
  unfold lastOf
  by_cases hm : m.half = h
  · rw [List.filter_cons_of_pos (by simp [hm]), List.getLast?_cons, if_pos hm]
    cases (ms.filter fun m => m.half = h).getLast? <;> rfl
  · rw [List.filter_cons_of_neg (by simp [hm]), if_neg hm, Option.or_none]

theorem foldl_halves (body : Nat → Nat) (ms : List Member) (getter setter : Option Nat) :
    ms.foldl (fun p m => Definition.apply (some p) (.half m.half (body m.index)))
        (.accessor getter setter) =
      .accessor (((lastOf .getter ms).map body).or getter)
        (((lastOf .setter ms).map body).or setter) := by
  induction ms generalizing getter setter with
  | nil => rfl
  | cons m ms ih =>
    rw [List.foldl_cons, apply_half, ih, lastOf_cons, lastOf_cons]
    cases m.half <;> cases lastOf .getter ms <;> cases lastOf .setter ms <;> rfl

theorem foldl_members (body : Nat → Nat) (own : Option Own) (m : Member) (ms : List Member) :
    ms.foldl (fun p m => Definition.apply (some p) (.half m.half (body m.index)))
        (Definition.apply own (.half m.half (body m.index))) =
      .accessor (((lastOf .getter (m :: ms)).map body).or (ownHalf own .getter))
        (((lastOf .setter (m :: ms)).map body).or (ownHalf own .setter)) := by
  have hfirst : Definition.apply own (.half m.half (body m.index)) =
      .accessor (if m.half = .getter then some (body m.index) else ownHalf own .getter)
        (if m.half = .setter then some (body m.index) else ownHalf own .setter) := by
    cases m.half <;> rfl
  rw [hfirst, foldl_halves, lastOf_cons, lastOf_cons]
  cases m.half <;> cases lastOf .getter ms <;> cases lastOf .setter ms <;> rfl

theorem define_members (w : Values) (p : AccessorPair) (hkeys : ∀ m ∈ p.members, m.key.named = k) :
    o.define (p.members.map (Member.definition w)) =
      { o with props := Lib.alter (fun own =>
          .accessor (((p.body .getter).map w.body).or (ownHalf own .getter))
            (((p.body .setter).map w.body).or (ownHalf own .setter))) k o.props } := by
  have hfirst : p.first.key.named = k := hkeys p.first List.mem_cons_self
  have hmore : ∀ d ∈ p.more.map (Member.definition w), d.1 = k := by
    intro d hd
    obtain ⟨m, hm, rfl⟩ := List.mem_map.mp hd
    exact hkeys m (List.mem_cons_of_mem p.first hm)
  have hfold : (fun own => (p.more.map (Member.definition w)).foldl
      (fun x e => Definition.apply (some x) e.2)
      (Definition.apply own (.half p.first.half (w.body p.first.index)))) = fun own =>
        Own.accessor (((p.body .getter).map w.body).or (ownHalf own .getter))
          (((p.body .setter).map w.body).or (ownHalf own .setter)) := by
    funext own
    rw [List.foldl_map]
    exact foldl_members w.body own p.first p.more
  unfold Object.define AccessorPair.members
  rw [List.map_cons, Lib.build_of_key _ _ _ hfirst hmore]
  exact congrArg (fun f => ({ o with props := Lib.alter f k o.props } : Object)) hfold

theorem settle_half {h : Half} {f : Nat} {defs : List (PropKey × Definition)}
    (hdefs : ∀ d ∈ defs, ∃ h', d.2 = .half h' f) (own : Option Own)
    (hk : ownHalf own h = some f ∨ ∃ d ∈ defs, d.1 = k ∧ d.2 = .half h f) :
    ownHalf (Lib.settle Definition.apply k own defs) h = some f := by
  induction defs generalizing own with
  | nil =>
    rcases hk with hown | ⟨d, hd, -⟩
    · exact hown
    · cases hd
  | cons d defs ih =>
    have hrest := ih fun d' hd' => hdefs d' (List.mem_cons_of_mem d hd')
    obtain ⟨h', hd⟩ := hdefs d List.mem_cons_self
    rw [Lib.settle_cons]
    by_cases hkey : d.1 = k
    · rw [if_pos hkey]
      refine hrest _ ?_
      have hhalf : ownHalf (some (Definition.apply own d.2)) h =
          if h' = h then some f else ownHalf own h := by
        rw [hd]
        exact half_apply own h' h f
      rw [hhalf]
      by_cases hh : h' = h
      · exact .inl (if_pos hh)
      · rw [if_neg hh]
        rcases hk with hown | ⟨e, he, hek, heh⟩
        · exact .inl hown
        · rcases List.mem_cons.mp he with rfl | hin
          · rw [hd] at heh
            injection heh with heq
            exact absurd heq hh
          · exact .inr ⟨e, hin, hek, heh⟩
    · rw [if_neg hkey]
      refine hrest own ?_
      rcases hk with hown | ⟨e, he, hek, heh⟩
      · exact .inl hown
      · rcases List.mem_cons.mp he with rfl | hin
        · exact absurd hek hkey
        · exact .inr ⟨e, hin, hek, heh⟩

theorem half_define_members {p : AccessorPair} {m : Member} (hm : m ∈ p.members) (v : JsValue)
    (f : Nat) :
    ownHalf ((o.define (p.members.map (Member.definition (constant v f)))).own m.key.named) m.half =
      some f := by
  rw [Object.own_define]
  refine settle_half (fun d hd => ?_) _ (.inr ?_)
  · obtain ⟨m', -, rfl⟩ := List.mem_map.mp hd
    exact ⟨m'.half, rfl⟩
  · exact ⟨_, List.mem_map.mpr ⟨m, hm, rfl⟩, rfl, rfl⟩

theorem own_defineAccessor_of_ne (hk : k ≠ key) (getter setter : Option Nat)
    (base : Option (Option Nat × Option Nat)) :
    (o.defineAccessor key getter setter base).own k = o.own k := by
  simp only [Object.defineAccessor]
  split
  · rfl
  · exact Object.own_put_of_ne o hk _

theorem own_defineAccessor_of_data (h : o.own key = some (.data v)) (getter setter : Option Nat)
    (base : Option (Option Nat × Option Nat)) :
    (o.defineAccessor key getter setter base).own key = some (.data v) := by
  simp only [Object.defineAccessor, h]
  exact h

theorem defineAccessor_of_not_data (h : (o.own key).all (fun own => !own.isData) = true)
    (getter setter : Option Nat) (base : Option (Option Nat × Option Nat)) :
    o.defineAccessor key getter setter base =
      o.put key (.accessor
        (getter.or (base.getD (ownHalf (o.own key) .getter, ownHalf (o.own key) .setter)).1)
        (setter.or (base.getD (ownHalf (o.own key) .getter, ownHalf (o.own key) .setter)).2)) := by
  simp only [Object.defineAccessor]
  cases hown : o.own key with
  | none => rfl
  | some p =>
    cases p with
    | data v =>
      rw [hown] at h
      cases h
    | accessor getter' setter' => rfl

theorem own_alter (f : Option Own → Own) (k : PropKey) :
    Object.own { o with props := Lib.alter f k o.props } k = some (f (o.own k)) :=
  Lib.lookup_alter_self f k o.props

theorem or_of_keepsHalf {p : AccessorPair} {h : Half} {base : Option Nat}
    (hkeeps : KeepsHalf intern o p h base) (body : Nat → Nat) :
    ((p.body h).map body).or base =
      ((p.body h).map body).or (ownHalf (o.own (p.first.key.atRun intern)) h) := by
  cases hbody : p.body h with
  | some f => rfl
  | none => exact hkeeps hbody

theorem defines_pair_iff (p : AccessorPair) :
    Defines intern found o (.pair p) ↔ Clear intern found o (.pair p) := by
  constructor
  · intro h
    have hrun : ∀ w : Values, o.defineAccessor (p.first.key.atRun intern)
        ((p.body .getter).map w.body) ((p.body .setter).map w.body) (found p.first.index) =
        o.define (p.members.map (Member.definition w)) := fun w => (Prod.mk.inj (h w)).1
    have hkeys : ∀ m ∈ p.members, m.key.named = p.first.key.atRun intern := by
      intro m hm
      by_contra hne
      -- the property of the member does not get the function
      have hown : ∀ f, ownHalf (o.own m.key.named) m.half = some f := by
        intro f
        have hhalf := half_define_members o hm .null f
        rw [← hrun, own_defineAccessor_of_ne o hne] at hhalf
        exact hhalf
      have hzero := hown 0
      rw [hown 1] at hzero
      cases hzero
    have hfirst := hkeys p.first List.mem_cons_self
    have hdata : (o.own (p.first.key.atRun intern)).all (fun own => !own.isData) = true := by
      cases hown : o.own (p.first.key.atRun intern) with
      | none => rfl
      | some own =>
        cases own with
        | accessor getter setter => rfl
        | data v =>
          have hhalf := half_define_members o (m := p.first) List.mem_cons_self .null 0
          rw [← hrun, hfirst, own_defineAccessor_of_data o hown] at hhalf
          cases hhalf
    refine ⟨hkeys, hdata, fun base hbase => ?_⟩
    have hsame := hrun (constant .null 0)
    rw [defineAccessor_of_not_data o hdata, define_members o _ p hkeys, hbase,
      Option.getD_some] at hsame
    have hown := congrArg (fun o => Object.own o (p.first.key.atRun intern)) hsame
    simp only [Object.own_put_self, own_alter, Option.some.injEq, Own.accessor.injEq] at hown
    refine ⟨fun hnone => ?_, fun hnone => ?_⟩
    · have hgetter := hown.1
      rw [hnone] at hgetter
      exact hgetter
    · have hsetter := hown.2
      rw [hnone] at hsetter
      exact hsetter
  · rintro ⟨hkeys, hdata, hbase⟩ w
    show (o.defineAccessor (p.first.key.atRun intern) ((p.body .getter).map w.body)
      ((p.body .setter).map w.body) (found p.first.index), Answer.done) = _
    rw [defineAccessor_of_not_data o hdata, Step.define, define_members o w p hkeys]
    have hput : ∀ own, own = o.own (p.first.key.atRun intern) →
        Own.accessor
          (((p.body .getter).map w.body).or ((found p.first.index).getD
            (ownHalf own .getter, ownHalf own .setter)).1)
          (((p.body .setter).map w.body).or ((found p.first.index).getD
            (ownHalf own .getter, ownHalf own .setter)).2) =
        .accessor (((p.body .getter).map w.body).or (ownHalf own .getter))
          (((p.body .setter).map w.body).or (ownHalf own .setter)) := by
      rintro own rfl
      cases hfound : found p.first.index with
      | none => rfl
      | some base =>
        obtain ⟨hgetter, hsetter⟩ := hbase base hfound
        rw [Option.getD_some, or_of_keepsHalf intern o hgetter, or_of_keepsHalf intern o hsetter]
    refine congrArg (fun props => (({ o with props := props } : Object), Answer.done))
      (Lib.alter_congr ?_)
    exact hput _ rfl

theorem defines_iff (st : Step) : Defines intern found o st ↔ Clear intern found o st := by
  cases st with
  | pair p => exact defines_pair_iff intern found o p
  | entry i e =>
    cases e with
    | prop key inherited => exact defines_prop_iff intern found o i key inherited
    | spread copied own once => exact defines_spread_iff intern found o i copied own once
    | proto inherited =>
      exact ⟨fun h => absurd h (not_defines_proto intern found o i inherited), False.elim⟩

end Steps

/-! ## §3 Runs of definitions -/

def Step.definitions (w : Values) : Step → List (PropKey × Definition)
  | .entry i e => e.definitions w i
  | .pair p => p.members.map (Member.definition w)

def definitionsFrom (w : Values) : List Entry → Nat → List (PropKey × Definition)
  | [], _ => []
  | .data e :: es, i => e.definitions w i ++ definitionsFrom w es (i + 1)
  | .accessor key half :: es, i =>
    Member.definition w ⟨i, key, half⟩ :: definitionsFrom w es (i + 1)

theorem keys_entry (w : Values) (i : Nat) (e : DataEntry) :
    (e.definitions w i).map Prod.fst = e.keys := by
  cases e with
  | prop key inherited => rfl
  | proto inherited => rfl
  | spread copied own once =>
    rw [DataEntry.definitions, DataEntry.keys, List.map_map]
    rfl

theorem keys_steps (w : Values) (steps : List Step) :
    (steps.flatMap (Step.definitions w)).map Prod.fst = steps.flatMap Step.keys := by
  rw [List.map_flatMap]
  refine List.flatMap_congr fun st _ => ?_
  cases st with
  | entry i e => exact keys_entry w i e
  | pair p =>
    rw [Step.definitions, Step.keys, List.map_map]
    rfl

theorem keys_definitionsFrom (w : Values) (entries : List Entry) (i : Nat) :
    (definitionsFrom w entries i).map Prod.fst = entries.flatMap Entry.keys := by
  induction entries generalizing i with
  | nil => rfl
  | cons e es ih =>
    cases e with
    | data e =>
      rw [definitionsFrom, List.map_append, keys_entry, ih]
      rfl
    | accessor key half =>
      rw [definitionsFrom, List.map_cons, ih]
      rfl

def NoProto (entries : List Entry) : Prop := ∀ inherited, .data (.proto inherited) ∉ entries

theorem leftFold_eq (h : NoProto entries) (w : Values) (i : Nat) (o : Object) :
    leftFold w entries i o = o.define (definitionsFrom w entries i) := by
  induction entries generalizing i o with
  | nil => rfl
  | cons e es ih =>
    have hrest : NoProto es := fun inherited hmem => h inherited (List.mem_cons_of_mem e hmem)
    cases e with
    | accessor key half =>
      rw [leftFold, ih hrest, definitionsFrom, ← Object.define_append]
      rfl
    | data e =>
      rw [leftFold, ih hrest, definitionsFrom, Object.define_append]
      cases e with
      | prop key inherited => rfl
      | spread copied own once => rfl
      | proto inherited => exact absurd List.mem_cons_self (h inherited)

section Runs

variable {intern : String → PropKey} {found : Nat → Option (Option Nat × Option Nat)} {w : Values}

theorem stepObject_eq {o : Object} {st : Step} (h : Clear intern found o st) :
    stepObject intern found w o st = o.define (st.definitions w) := by
  have hrun := congrArg Prod.fst ((defines_iff intern found o st).mpr h w)
  refine hrun.trans ?_
  cases st with
  | pair p => rfl
  | entry i e =>
    cases e with
    | prop key inherited => rfl
    | spread copied own once => rfl
    | proto inherited => cases h

theorem run_eq {o : Object} {steps : List Step}
    (h : Lib.StepsMeet (stepObject intern found w) (Clear intern found) o steps) :
    Lib.run (stepObject intern found w) o steps =
      o.define (steps.flatMap (Step.definitions w)) := by
  induction steps generalizing o with
  | nil => rfl
  | cons st steps ih =>
    rw [Lib.run_cons, ih h.2, stepObject_eq h.1, List.flatMap_cons, Object.define_append]

theorem exists_clear {o : Object} {steps : List Step} {st : Step} (hmem : st ∈ steps)
    (h : Lib.StepsMeet (stepObject intern found w) (Clear intern found) o steps) :
    ∃ o', Clear intern found o' st := by
  obtain ⟨before, after, heq⟩ := List.append_of_mem hmem
  exact ⟨_, h.at_step heq⟩

theorem key_ne_of_isData {o : Object} {k : PropKey} {v : JsValue}
    (hk : o.own k = some (.data v)) {pairs : List AccessorPair}
    (h : Lib.StepsMeet (stepObject intern found w) (Clear intern found) o (pairs.map .pair)) :
    ∀ p ∈ pairs, p.first.key.atRun intern ≠ k := by
  induction pairs generalizing o with
  | nil =>
    intro p hp
    cases hp
  | cons q pairs ih =>
    obtain ⟨⟨-, hdata, -⟩, hrest⟩ := h
    have hq : q.first.key.atRun intern ≠ k := by
      intro heq
      rw [heq, hk] at hdata
      cases hdata
    intro p hp
    rcases List.mem_cons.mp hp with rfl | hin
    · exact hq
    · refine ih ?_ hrest p hin
      exact (own_defineAccessor_of_ne o (Ne.symm hq) _ _ _).trans hk

end Runs

/-! ## §4 The two orders -/

def dataSteps : List Entry → Nat → List Step
  | [], _ => []
  | .data e :: es, i => .entry i e :: dataSteps es (i + 1)
  | .accessor _ _ :: es, i => dataSteps es (i + 1)

def pairsFrom : List Entry → Nat → List AccessorPair → List AccessorPair
  | [], _, accessors => accessors
  | .data _ :: es, i, accessors => pairsFrom es (i + 1) accessors
  | .accessor key half :: es, i, accessors =>
    pairsFrom es (i + 1) (addAccessor accessors key.text ⟨i, key, half⟩)

theorem objectLiteral_eq (entries : List Entry) (i : Nat) (accessors : List AccessorPair) :
    objectLiteral entries i accessors =
      dataSteps entries i ++ (pairsFrom entries i accessors).map .pair := by
  induction entries generalizing i accessors with
  | nil => rfl
  | cons e es ih =>
    cases e with
    | data e =>
      rw [objectLiteral, ih]
      rfl
    | accessor key half =>
      rw [objectLiteral, ih]
      rfl

theorem addAccessor_perm (ps : List AccessorPair) (text : String) (m : Member) :
    ((addAccessor ps text m).flatMap AccessorPair.members).Perm
      (ps.flatMap AccessorPair.members ++ [m]) := by
  induction ps with
  | nil => exact .refl _
  | cons p ps ih =>
    rw [addAccessor]
    split
    · -- the member goes behind the ones of its pair
      have hmove : (p.members ++ [m] ++ ps.flatMap AccessorPair.members).Perm
          (p.members ++ (ps.flatMap AccessorPair.members ++ [m])) := by
        rw [List.append_assoc]
        exact (List.perm_append_comm).append_left p.members
      rw [List.flatMap_cons, List.flatMap_cons, List.append_assoc]
      exact hmove
    · rw [List.flatMap_cons, List.flatMap_cons, List.append_assoc]
      exact ih.append_left p.members

theorem pairsFrom_perm (entries : List Entry) (i : Nat) (accessors : List AccessorPair) :
    ((pairsFrom entries i accessors).flatMap AccessorPair.members).Perm
      (accessors.flatMap AccessorPair.members ++ membersFrom entries i) := by
  induction entries generalizing i accessors with
  | nil =>
    rw [membersFrom, List.append_nil]
    exact .refl _
  | cons e es ih =>
    cases e with
    | data e => exact ih (i + 1) accessors
    | accessor key half =>
      refine (ih (i + 1) _).trans ?_
      have hadd := (addAccessor_perm accessors key.text ⟨i, key, half⟩).append_right
        (membersFrom es (i + 1))
      rw [List.append_assoc] at hadd
      exact hadd

def Definition.isData : Definition → Bool
  | .data _ => true
  | .half .. => false

theorem isData_entry {w : Values} {i : Nat} {e : DataEntry} {d : PropKey × Definition}
    (h : d ∈ e.definitions w i) : d.2.isData = true := by
  cases e with
  | prop key inherited =>
    rw [DataEntry.definitions, List.mem_singleton] at h
    rw [h]
    rfl
  | proto inherited => cases h
  | spread copied own once =>
    obtain ⟨c, -, rfl⟩ := List.mem_map.mp h
    rfl

theorem isData_dataSteps {w : Values} {i : Nat} {d : PropKey × Definition}
    (h : d ∈ (dataSteps entries i).flatMap (Step.definitions w)) : d.2.isData = true := by
  induction entries generalizing i with
  | nil => cases h
  | cons e es ih =>
    cases e with
    | accessor key half => exact ih h
    | data e =>
      rw [dataSteps, List.flatMap_cons, List.mem_append] at h
      rcases h with hhead | hrest
      · exact isData_entry hhead
      · exact ih hrest

theorem filter_data_definitionsFrom (w : Values) (entries : List Entry) (i : Nat) :
    (definitionsFrom w entries i).filter (fun d => d.2.isData) =
      (dataSteps entries i).flatMap (Step.definitions w) := by
  induction entries generalizing i with
  | nil => rfl
  | cons e es ih =>
    cases e with
    | accessor key half =>
      rw [definitionsFrom, List.filter_cons_of_neg (by exact Bool.false_ne_true), ih]
      rfl
    | data e =>
      rw [definitionsFrom, List.filter_append, ih,
        List.filter_eq_self.mpr fun d hd => isData_entry hd]
      rfl

theorem filter_half_definitionsFrom (w : Values) (entries : List Entry) (i : Nat) :
    (definitionsFrom w entries i).filter (fun d => !d.2.isData) =
      (membersFrom entries i).map (Member.definition w) := by
  induction entries generalizing i with
  | nil => rfl
  | cons e es ih =>
    cases e with
    | accessor key half =>
      rw [definitionsFrom, List.filter_cons_of_pos (by rfl), ih]
      rfl
    | data e =>
      have hnone : (e.definitions w i).filter (fun d => !d.2.isData) = [] :=
        List.filter_eq_nil_iff.mpr fun d hd => by rw [isData_entry hd]; decide
      rw [definitionsFrom, List.filter_append, ih, hnone]
      rfl

/-! ## §5 What the definitions of a key come to -/

theorem settle_isData {k : PropKey} {defs : List (PropKey × Definition)}
    (hdefs : ∀ d ∈ defs, d.2.isData = true) (hk : k ∈ defs.map Prod.fst) (own : Option Own) :
    ∃ v, Lib.settle Definition.apply k own defs = some (.data v) := by
  induction defs generalizing own with
  | nil => cases hk
  | cons d defs ih =>
    have hrest := ih fun d' hd' => hdefs d' (List.mem_cons_of_mem d hd')
    rw [Lib.settle_cons]
    by_cases hin : k ∈ defs.map Prod.fst
    · split
      · exact hrest hin _
      · exact hrest hin _
    · have hd : d.1 = k := by
        rcases List.mem_cons.mp hk with heq | hmem
        · exact heq.symm
        · exact absurd hmem hin
      have hdata := hdefs d List.mem_cons_self
      rw [if_pos hd, Lib.settle_of_not_mem _ hin]
      cases hdef : d.2 with
      | data v => exact ⟨v, by rw [apply_data]⟩
      | half h f =>
        rw [hdef] at hdata
        cases hdata

def membersOf (k : PropKey) (ms : List Member) : List Member := ms.filter fun m => m.key.named = k

theorem lastBody_eq (k : PropKey) (h : Half) (ms : List Member) :
    lastBody k h ms = lastOf h (membersOf k ms) := by
  unfold lastBody lastOf membersOf
  rw [List.filter_filter]
  refine congrArg (fun ms => (List.getLast? ms).map Member.index) (List.filter_congr fun m _ => ?_)
  rw [Bool.decide_and, Bool.and_comm]

theorem filter_key_members (w : Values) (k : PropKey) (ms : List Member) :
    (ms.map (Member.definition w)).filter (fun d => d.1 = k) =
      (membersOf k ms).map (Member.definition w) := by
  rw [List.filter_map]
  rfl

theorem foldl_some (own : Own) (ms : List Member) (body : Nat → Nat) :
    ms.foldl (fun a m => some (Definition.apply a (.half m.half (body m.index)))) (some own) =
      some (ms.foldl (fun p m => Definition.apply (some p) (.half m.half (body m.index))) own) := by
  induction ms generalizing own with
  | nil => rfl
  | cons m ms ih => exact ih _

theorem settle_members (w : Values) (k : PropKey) (ms : List Member) :
    Lib.settle Definition.apply k none (ms.map (Member.definition w)) =
      if membersOf k ms = [] then none
      else some (.accessor ((lastBody k .getter ms).map w.body)
        ((lastBody k .setter ms).map w.body)) := by
  unfold Lib.settle
  rw [filter_key_members, List.foldl_map, lastBody_eq, lastBody_eq]
  cases membersOf k ms with
  | nil => rfl
  | cons m rest =>
    have hfirst : (m :: rest).foldl (fun a m => some (Definition.apply a (Member.definition w m).2))
        none = some (rest.foldl
          (fun p m => Definition.apply (some p) (.half m.half (w.body m.index)))
          (Definition.apply none (.half m.half (w.body m.index)))) :=
      foldl_some _ rest w.body
    rw [if_neg (List.cons_ne_nil m rest), hfirst, foldl_members]
    simp only [ownHalf, Option.bind_none, Option.or_none]

section Order

variable {intern : String → PropKey} {found : Nat → Option (Option Nat × Option Nat)}
  {entries : List Entry}
variable {w : Values} {k : PropKey}

def pairMembers (entries : List Entry) : List Member :=
  (pairsFrom entries 0 []).flatMap AccessorPair.members

theorem pairMembers_perm (entries : List Entry) :
    (pairMembers entries).Perm (membersFrom entries 0) := pairsFrom_perm entries 0 []

theorem flatMap_members (entries : List Entry) :
    (objectLiteral entries 0 []).flatMap Step.members = pairMembers entries := by
  have hdata : ∀ (es : List Entry) (i : Nat), (dataSteps es i).flatMap Step.members = [] := by
    intro es
    induction es with
    | nil => exact fun _ => rfl
    | cons e es ih =>
      intro i
      cases e with
      | data e => exact ih (i + 1)
      | accessor key half => exact ih (i + 1)
  rw [objectLiteral_eq, List.flatMap_append, hdata, List.nil_append, List.flatMap_map]
  rfl

theorem flatMap_definitions (w : Values) (entries : List Entry) :
    (objectLiteral entries 0 []).flatMap (Step.definitions w) =
      (dataSteps entries 0).flatMap (Step.definitions w) ++
        (pairMembers entries).map (Member.definition w) := by
  rw [objectLiteral_eq, List.flatMap_append, List.flatMap_map, pairMembers, List.map_flatMap]
  rfl

theorem membersOf_eq_nil
    (hclear : Lib.StepsMeet (stepObject intern found w) (Clear intern found) .new
      (objectLiteral entries 0 []))
    (hk : k ∈ ((dataSteps entries 0).flatMap (Step.definitions w)).map Prod.fst) :
    membersOf k (pairMembers entries) = [] := by
  obtain ⟨v, hv⟩ := settle_isData (fun _ hd => isData_dataSteps hd) hk none
  rw [objectLiteral_eq, Lib.stepsMeet_append] at hclear
  have hown : (Lib.run (stepObject intern found w) .new (dataSteps entries 0)).own k =
      some (.data v) := by
    rw [run_eq hclear.1, Object.own_define]
    exact hv
  refine List.filter_eq_nil_iff.mpr fun m hm => ?_
  obtain ⟨p, hp, hmp⟩ := List.mem_flatMap.mp hm
  obtain ⟨o, hkeys, -⟩ := exists_clear (List.mem_map.mpr ⟨p, hp, rfl⟩) hclear.2
  rw [decide_eq_true_eq, hkeys m hmp]
  exact key_ne_of_isData hown hclear.2 p hp

theorem settle_of_data (hnone : membersOf k (pairMembers entries) = []) :
    Lib.settle Definition.apply k none
        ((objectLiteral entries 0 []).flatMap (Step.definitions w)) =
      Lib.settle Definition.apply k none (definitionsFrom w entries 0) := by
  have hsource : membersOf k (membersFrom entries 0) = [] :=
    List.perm_nil.mp (hnone ▸ ((pairMembers_perm entries).filter _).symm)
  refine Lib.settle_congr _ ?_ none
  have hall : ∀ d ∈ definitionsFrom w entries 0, d.1 = k → d.2.isData = true := by
    intro d hd hdk
    by_contra hhalf
    have hmem : d ∈ (definitionsFrom w entries 0).filter fun d => !d.2.isData :=
      List.mem_filter.mpr ⟨hd, by rw [Bool.not_eq_true'] ; exact Bool.not_eq_true _ ▸ hhalf⟩
    rw [filter_half_definitionsFrom] at hmem
    have hkey : d ∈ (membersOf k (membersFrom entries 0)).map (Member.definition w) := by
      rw [← filter_key_members]
      exact List.mem_filter.mpr ⟨hmem, decide_eq_true hdk⟩
    rw [hsource] at hkey
    cases hkey
  rw [flatMap_definitions, List.filter_append, filter_key_members, hnone, List.map_nil,
    List.append_nil, Lib.filter_key_of_part hall, filter_data_definitionsFrom]

theorem settle_of_members
    (hk : k ∉ ((dataSteps entries 0).flatMap (Step.definitions w)).map Prod.fst) :
    Lib.settle Definition.apply k none
        ((objectLiteral entries 0 []).flatMap (Step.definitions w)) =
      Lib.settle Definition.apply k none ((pairMembers entries).map (Member.definition w)) ∧
    Lib.settle Definition.apply k none (definitionsFrom w entries 0) =
      Lib.settle Definition.apply k none ((membersFrom entries 0).map (Member.definition w)) := by
  refine ⟨Lib.settle_congr _ ?_ none, Lib.settle_congr _ ?_ none⟩
  · have hnil : ((dataSteps entries 0).flatMap (Step.definitions w)).filter
        (fun d => d.1 = k) = [] := by
      refine List.filter_eq_nil_iff.mpr fun d hd => ?_
      rw [decide_eq_true_eq]
      exact fun heq => hk (List.mem_map.mpr ⟨d, hd, heq⟩)
    rw [flatMap_definitions, List.filter_append, hnil, List.nil_append]
  · have hall : ∀ d ∈ definitionsFrom w entries 0, d.1 = k → (!d.2.isData) = true := by
      intro d hd hdk
      by_contra hdata
      have hmem : d ∈ (definitionsFrom w entries 0).filter fun d => d.2.isData :=
        List.mem_filter.mpr ⟨hd, by rw [Bool.not_eq_true, Bool.not_eq_false'] at hdata; exact hdata⟩
      rw [filter_data_definitionsFrom] at hmem
      exact hk (List.mem_map.mpr ⟨d, hmem, hdk⟩)
    rw [Lib.filter_key_of_part hall, filter_half_definitionsFrom]

/-- **The definitions of each key come to the same exactly if the last bodies do**, if all
emissions are clear. -/
theorem settle_iff
    (hclear : ∀ w, Lib.StepsMeet (stepObject intern found w) (Clear intern found) .new
      (objectLiteral entries 0 [])) :
    (∀ w k, Lib.settle Definition.apply k none
        ((objectLiteral entries 0 []).flatMap (Step.definitions w)) =
      Lib.settle Definition.apply k none (definitionsFrom w entries 0)) ↔
      ∀ k h, lastBody k h (pairMembers entries) = lastBody k h (membersFrom entries 0) := by
  have hperm : ∀ k, (membersOf k (pairMembers entries)).Perm
      (membersOf k (membersFrom entries 0)) :=
    fun k => (pairMembers_perm entries).filter _
  constructor
  · intro hsettle k h
    by_cases hk : k ∈ ((dataSteps entries 0).flatMap
        (Step.definitions ⟨fun _ => .null, fun _ _ => .null, id⟩)).map Prod.fst
    · have hnone := membersOf_eq_nil (hclear _) hk
      have hsource := List.perm_nil.mp (hnone ▸ (hperm k).symm)
      rw [lastBody_eq, lastBody_eq, hnone, hsource]
    · have hsame := hsettle ⟨fun _ => .null, fun _ _ => .null, id⟩ k
      rw [(settle_of_members hk).1, (settle_of_members hk).2, settle_members,
        settle_members] at hsame
      by_cases hnone : membersOf k (pairMembers entries) = []
      · have hsource := List.perm_nil.mp (hnone ▸ (hperm k).symm)
        rw [lastBody_eq, lastBody_eq, hnone, hsource]
      · have hsource : membersOf k (membersFrom entries 0) ≠ [] :=
          fun heq => hnone (List.perm_nil.mp (heq ▸ hperm k))
        rw [if_neg hnone, if_neg hsource, Option.some.injEq, Own.accessor.injEq] at hsame
        simp only [Option.map_id_fun, id] at hsame
        cases h with
        | getter => exact hsame.1
        | setter => exact hsame.2
  · intro hlast w k
    by_cases hk : k ∈ ((dataSteps entries 0).flatMap (Step.definitions w)).map Prod.fst
    · exact settle_of_data (membersOf_eq_nil (hclear w) hk)
    · rw [(settle_of_members hk).1, (settle_of_members hk).2, settle_members, settle_members,
        hlast, hlast]
      by_cases hnone : membersOf k (pairMembers entries) = []
      · rw [if_pos hnone, if_pos (List.perm_nil.mp (hnone ▸ (hperm k).symm))]
      · have hsource : membersOf k (membersFrom entries 0) ≠ [] :=
          fun heq => hnone (List.perm_nil.mp (heq ▸ hperm k))
        rw [if_neg hnone, if_neg hsource]

/-! ## §6 Literals -/

theorem exists_entry {entries : List Entry} {e : DataEntry} (h : .data e ∈ entries) (i : Nat) :
    ∃ j, Step.entry j e ∈ dataSteps entries i := by
  induction entries generalizing i with
  | nil => cases h
  | cons first es ih =>
    rcases List.mem_cons.mp h with rfl | hin
    · exact ⟨i, List.mem_cons_self⟩
    · obtain ⟨j, hj⟩ := ih hin (i + 1)
      cases first with
      | data d => exact ⟨j, List.mem_cons_of_mem _ hj⟩
      | accessor key half => exact ⟨j, hj⟩

theorem noProto_of_clear (h : Lib.StepsMeet (stepObject intern found w) (Clear intern found) .new
      (objectLiteral entries 0 [])) : NoProto entries := by
  intro inherited hmem
  obtain ⟨j, hj⟩ := exists_entry hmem 0
  have hin : Step.entry j (.proto inherited) ∈ objectLiteral entries 0 [] := by
    rw [objectLiteral_eq]
    exact List.mem_append_left _ hj
  obtain ⟨o, hclear⟩ := exists_clear hin h
  exact hclear

theorem define_eq_iff (defs defs' : List (PropKey × Definition)) :
    Object.new.define defs = Object.new.define defs' ↔
      Lib.build Definition.apply defs [] = Lib.build Definition.apply defs' [] :=
  ⟨congrArg Object.props, fun h => by rw [Object.define, Object.define, Object.new, h]⟩

/-- **When the emissions come to the left fold**, if all are clear. -/
theorem leftFold_iff
    (hclear : ∀ w, Lib.StepsMeet (stepObject intern found w) (Clear intern found) .new
      (objectLiteral entries 0 [])) :
    (∀ w, Lib.run (stepObject intern found w) .new (objectLiteral entries 0 []) =
      leftFold w entries 0 .new) ↔ InOrder entries := by
  have hrun : ∀ w, Lib.run (stepObject intern found w) .new (objectLiteral entries 0 []) =
      leftFold w entries 0 .new ↔
        Lib.firstKeys ((objectLiteral entries 0 []).flatMap Step.keys) =
          Lib.firstKeys (entries.flatMap Entry.keys) ∧
        ∀ k, Lib.settle Definition.apply k none
            ((objectLiteral entries 0 []).flatMap (Step.definitions w)) =
          Lib.settle Definition.apply k none (definitionsFrom w entries 0) := by
    intro w
    rw [run_eq (hclear w), leftFold_eq (noProto_of_clear (hclear w)), define_eq_iff,
      Lib.build_eq_iff, keys_steps, keys_definitionsFrom]
  have hbodies := settle_iff hclear
  constructor
  · intro h
    refine ⟨((hrun ⟨fun _ => .null, fun _ _ => .null, id⟩).mp (h _)).1, ?_⟩
    rw [flatMap_members]
    exact hbodies.mp fun w => ((hrun w).mp (h w)).2
  · rintro ⟨hkeys, hlast⟩ w
    rw [flatMap_members] at hlast
    exact (hrun w).mpr ⟨hkeys, hbodies.mpr hlast w⟩

end Order

/-- **A literal is the left fold of its entries exactly if** no key is converted by calls, each
emission is clear and their order tells no difference. -/
theorem held_iff (intern : String → PropKey) (found : Nat → Option (Option Nat × Option Nat))
    (entries : List Entry) :
    Held intern found entries ↔
      (∀ e ∈ entries, e.plainKey = true) ∧
      (∀ w, Lib.StepsMeet (stepObject intern found w) (Clear intern found) .new
        (objectLiteral entries 0 [])) ∧
      InOrder entries := by
  unfold Held
  rw [evaluation_iff, forall_and]
  have hsteps : (∀ w, Lib.StepsMeet (stepObject intern found w) (Defines intern found) .new
        (objectLiteral entries 0 [])) ↔
      ∀ w, Lib.StepsMeet (stepObject intern found w) (Clear intern found) .new
        (objectLiteral entries 0 []) := by
    constructor
    · exact fun h w => (h w).imp fun o st => (defines_iff intern found o st).mp
    · exact fun h w => (h w).imp fun o st => (defines_iff intern found o st).mpr
  rw [hsteps]
  constructor
  · rintro ⟨hplain, hclear, hfold⟩
    exact ⟨hplain, hclear, (leftFold_iff hclear).mp hfold⟩
  · rintro ⟨hplain, hclear, horder⟩
    exact ⟨hplain, hclear, (leftFold_iff hclear).mpr horder⟩

/-- `{ get a() {}, b: v }` has `b` before `a`. -/
theorem accessor_moves_back :
    ¬ ∀ intern found entries, Held intern found entries := by
  intro h
  have hheld := h (fun t => .string t.length) (fun _ => none)
    [.accessor (.static "a" (.string 1)) .getter, .data (.prop (.static "bb" (.string 2)) .missing)]
  have hkeys := congrArg (fun o => o.props.map Prod.fst)
    (hheld.2 ⟨fun _ => .null, fun _ _ => .null, id⟩).2
  exact absurd hkeys (by decide)

end V12.Literal
