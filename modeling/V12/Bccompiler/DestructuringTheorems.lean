/-
V12.Bccompiler.DestructuringTheorems — which patterns an assignment takes apart as a
declaration does.

On a plain pattern the two are the same run (`assign_eq`), whatever the machine.
On any other one they differ in `recorder`, a machine in which every read
succeeds and which records the instructions only one of the two forms has.
-/
import V12.Bccompiler.Destructuring

namespace V12.Destructuring

open V12.Heap (JsValue)

variable {W α β : Type}

/-! ## §1 Plain patterns -/

theorem pure_bind (a : α) (k : α → Run W β) : (pure a : Run W α) >>= k = k a := rfl

theorem probe_eq (M : Machine W) {inWith : Bool} {p : Pattern} (h : p.unprobed inWith = true) :
    probeResolveBinding M inWith p = pure () := by
  unfold Pattern.unprobed at h
  unfold probeResolveBinding
  cases inWith with
  | false => rfl
  | true =>
    cases hp : p.probed with
    | none => rfl
    | some n =>
      rw [hp] at h
      cases h

theorem assignElems_allHoles (M : Machine W) : ∀ (elems : Elems) (index : Nat),
    elems.allHoles = true → assignElems M elems index = some fun _ => pure ()
  | .nil, _, _ => rfl
  | .hole more, index, h => assignElems_allHoles M more (index + 1) h

theorem declareFixed_allHoles (M : Machine W) (fuel : Nat) (inWith : Bool) :
    ∀ (elems : Elems) (src : JsValue) (idx : Nat) (literal : List Bool), elems.allHoles = true →
      declareFixed M fuel inWith elems src idx literal = pure ()
  | .nil, _, _, _, _ => rfl
  | .hole more, src, idx, literal, h =>
    declareFixed_allHoles M fuel inWith more src (idx + 1) literal h

mutual

/-- **A plain pattern is assigned to as it is declared.** -/
theorem assign_eq (M : Machine W) (inWith : Bool) : ∀ (p : Pattern) (known : Bool),
    p.plain inWith known = true → ∃ code, assignTarget M p = some code ∧
      ∀ fuel src, declare M fuel inWith p known src = code src
  | .name n, _, _ => ⟨fun val => M.store n val, rfl, fun _ _ => rfl⟩
  | .object props, _, h => by
    obtain ⟨code, hcode, heq⟩ := assignProps_eq M inWith props h
    refine ⟨_, by rw [assignTarget, hcode]; rfl, fun fuel src => ?_⟩
    have hbare : props.noProps = props.isBare := by
      cases props with
      | rest p => cases h
      | _ => rfl
    rw [declare, heq, hbare]
  | .array elems, known, h => by
    rw [Pattern.plain, Bool.or_eq_true, Bool.and_eq_true] at h
    by_cases hholes : elems.allHoles = true
    · refine ⟨_, by rw [assignTarget, assignElems_allHoles M elems 0 hholes]; rfl,
        fun fuel src => ?_⟩
      rw [declare]
      split
      case isTrue => rw [declareFixed_allHoles M fuel inWith elems src 0 [] hholes]
      case isFalse =>
        rw [declareArray, if_pos hholes, requireWhen, if_pos hholes]
    · obtain ⟨hknown, helems⟩ := h.resolve_left hholes
      obtain ⟨code, hcode, heq⟩ := assignElems_eq M inWith elems 0 [] helems
      refine ⟨_, by rw [assignTarget, hcode]; rfl, fun fuel src => ?_⟩
      rw [declare, if_pos hknown, heq]
  | .withDefault p default, known, h => by
    obtain ⟨code, hcode, heq⟩ := assign_eq M inWith p (known && default.isArrayLiteral) h
    refine ⟨_, by rw [assignTarget, hcode]; rfl, fun fuel src => ?_⟩
    simp only [declare, heq]

theorem assignProps_eq (M : Machine W) (inWith : Bool) : ∀ (props : Props),
    props.plain inWith = true → ∃ code, assignProps M props = some code ∧
      ∀ fuel src excluded, declareProps M fuel inWith props src excluded = code src
  | .nil, _ => ⟨fun _ => pure (), rfl, fun _ _ _ => rfl⟩
  | .prop (.text t) p more, h => by
    rw [Props.plain, Bool.and_eq_true, Bool.and_eq_true] at h
    obtain ⟨first, hfirst, heq⟩ := assign_eq M inWith p false h.1.2
    obtain ⟨code, hcode, hmore⟩ := assignProps_eq M inWith more h.2
    refine ⟨_, by rw [assignProps, hfirst, hcode]; rfl, fun fuel src excluded => ?_⟩
    simp only [declareProps, declaredKey, probe_eq M h.1.1, pure_bind, heq, hmore]

theorem assignElems_eq (M : Machine W) (inWith : Bool) : ∀ (elems : Elems) (idx : Nat)
    (literal : List Bool), elems.plain inWith idx literal = true →
      ∃ code, assignElems M elems idx = some code ∧
        ∀ fuel src, declareFixed M fuel inWith elems src idx literal = code src
  | .nil, _, _, _ => ⟨fun _ => pure (), rfl, fun _ _ => rfl⟩
  | .rest p, idx, _, h => by
    rw [Elems.plain, Bool.and_eq_true, beq_iff_eq] at h
    obtain ⟨code, hcode, heq⟩ := assign_eq M inWith p true h.2
    refine ⟨_, by rw [assignElems, hcode]; rfl, fun fuel src => ?_⟩
    simp only [declareFixed, h.1, heq]
  | .hole more, idx, literal, h => assignElems_eq M inWith more (idx + 1) literal h
  | .elem p more, idx, literal, h => by
    rw [Elems.plain, Bool.and_eq_true, Bool.and_eq_true] at h
    obtain ⟨first, hfirst, heq⟩ := assign_eq M inWith p (literal.getD idx false) h.1.2
    obtain ⟨code, hcode, hmore⟩ := assignElems_eq M inWith more (idx + 1) literal h.2
    refine ⟨_, by rw [assignElems, hfirst, hcode]; rfl, fun fuel src => ?_⟩
    simp only [declareFixed, probe_eq M h.1.1, pure_bind, heq, hmore]

end

/-! ## §2 The recorder -/

/-- Whether an instruction only declarations have was run, and the starts of the rests. -/
abbrev Record := Bool × List Nat

def noted (v : α) : Run Record α := fun w => .ok v (true, w.2)

def recorder : Machine Record where
  getProperty _ _ := pure (.smi 0)
  setProperty _ _ _ := pure ()
  toPropertyKey v := noted v
  expr _ := pure (.smi 0)
  getIterator _ := noted (.smi 0)
  iteratorNext _ := pure (.smi 0)
  iteratorClose _ _ := pure ()
  newArray := pure (.smi 0)
  copyArrayRest _ start := fun w => .ok (.smi 0) (w.1, w.2 ++ [start])
  copyObjectRest _ _ := noted (.smi 0)
  hasBinding _ := noted ()
  store _ _ := pure ()
  toBoolean _ _ := true

/-- The run goes through, notes what `b` says and adds the starts. -/
def Records (m : Run Record α) (b : Bool) (starts : List Nat) : Prop :=
  ∀ w, ∃ a, m w = .ok a (w.1 || b, w.2 ++ starts)

theorem Records.pure (a : α) : Records (pure a) false [] := by
  intro w
  refine ⟨a, ?_⟩
  rw [Bool.or_false, List.append_nil]
  rfl

theorem Records.noted (a : α) : Records (noted a) true [] := by
  intro w
  refine ⟨a, ?_⟩
  rw [Bool.or_true, List.append_nil]
  rfl

variable {m : Run Record α} {k : α → Run Record β} {b c p : Bool} {s d a : List Nat} {fuel : Nat}

theorem Records.bind {t : List Nat} (hm : Records m b s) (hk : ∀ a, Records (k a) c t) :
    Records (m >>= k) (b || c) (s ++ t) := by
  intro w
  obtain ⟨a, ha⟩ := hm w
  obtain ⟨b', hb'⟩ := hk a (w.1 || b, w.2 ++ s)
  refine ⟨b', ?_⟩
  rw [← Bool.or_assoc, ← List.append_assoc, ← hb']
  show Bind.bind m k w = _
  simp only [Bind.bind, ha]

theorem Records.quiet (hm : Records m false []) (hk : ∀ a, Records (k a) b s) :
    Records (m >>= k) b s := by
  have h := hm.bind hk
  rw [Bool.false_or, List.nil_append] at h
  exact h

theorem Records.noting (hm : Records m true []) (hk : ∀ a, Records (k a) b s) :
    Records (m >>= k) true s := by
  have h := hm.bind hk
  rw [Bool.true_or, List.nil_append] at h
  exact h

theorem Records.ending (hm : Records m b s) (hk : ∀ a, Records (k a) false []) :
    Records (m >>= k) b s := by
  have h := hm.bind hk
  rw [Bool.or_false, List.append_nil] at h
  exact h

theorem records_copyArrayRest (src : JsValue) (start : Nat) :
    Records (recorder.copyArrayRest src start) false [start] := by
  intro w
  refine ⟨.smi 0, ?_⟩
  rw [Bool.or_false]
  rfl

theorem records_coercible (src : JsValue) :
    Records (requireObjectCoercible recorder src) false [] :=
  (Records.pure (JsValue.smi 0)).bind fun _ => .pure ()

theorem records_requireWhen (bare : Bool) (src : JsValue) :
    Records (requireWhen recorder bare src) false [] := by
  unfold requireWhen
  split
  case isTrue => exact records_coercible src
  case isFalse => exact .pure ()

theorem records_lowerDefault (src : JsValue) (default : Default) :
    Records (lowerDefault recorder src default) false [] := by
  unfold lowerDefault
  split
  case isTrue => exact .pure _
  case isFalse => exact .pure _

theorem records_probe (inWith : Bool) (p : Pattern) :
    Records (probeResolveBinding recorder inWith p) (!p.unprobed inWith) [] := by
  unfold probeResolveBinding Pattern.unprobed
  cases inWith with
  | false => exact .pure ()
  | true =>
    cases p.probed with
    | none => exact .pure ()
    | some n => exact .noted ()

theorem records_ifTrue {v : JsValue} {yes no : Run Record α} (h : Records yes b s) :
    Records (ifTrue recorder v yes no) b s := h

theorem records_protecting {body : Run Record α} {handler : JsValue → Run Record α}
    (h : Records body b s) : Records (protecting body handler) b s := by
  intro w
  obtain ⟨a, ha⟩ := h w
  refine ⟨a, ?_⟩
  show protecting body handler w = _
  simp only [protecting, ha]

theorem records_restLoop (iter array : JsValue) (h : 0 < fuel) :
    Records (restLoop recorder iter array fuel) false [] := by
  cases fuel with
  | zero => cases h
  | succ fuel => exact (Records.pure (JsValue.smi 0)).bind fun _ => Records.pure ()

theorem records_finish (iter : JsValue) (last : Option JsValue) :
    Records (finishElems recorder iter last) false [] := by
  cases last with
  | none => exact .pure ()
  | some lastDone => exact records_ifTrue (.pure ())

theorem records_newRestArray (elems : Elems) : Records (newRestArray recorder elems) false [] := by
  unfold newRestArray
  split
  case isTrue => exact .pure _
  case isFalse => exact .pure _

theorem records_declareArray {elems : Elems}
    {elements : JsValue → JsValue → Run Record (Option JsValue)} (hholes : ¬ elems.allHoles = true)
    (h : ∀ iter restArray, Records (elements iter restArray) b s) (src : JsValue) :
    Records (declareArray recorder elems elements src) true s := by
  unfold declareArray
  rw [if_neg hholes]
  refine (records_coercible src).quiet fun _ => ?_
  refine (Records.noted (JsValue.smi 0)).noting (b := b) fun iter => ?_
  refine (records_newRestArray elems).quiet fun restArray => ?_
  refine (records_protecting (h iter restArray)).ending fun last => ?_
  exact records_finish iter last

/-- What the records of the two forms of a pattern say: the declaration noted an instruction of
its own, or there are as many starts in both and the pattern is plain or they differ. -/
def Verdict (noted : Bool) (declared assigned : List Nat) (plain : Bool) : Prop :=
  noted = true ∨
    declared.length = assigned.length ∧ (plain = true ∨ declared ≠ assigned)

theorem Verdict.append {d' a' : List Nat} {q : Bool} (h : Verdict b d a p)
    (h' : Verdict c d' a' q) : Verdict (b || c) (d ++ d') (a ++ a') (p && q) := by
  rcases h with rfl | ⟨hlen, hplain⟩
  · exact .inl rfl
  · rcases h' with rfl | ⟨hlen', hplain'⟩
    · exact .inl (Bool.or_true b)
    · refine .inr ⟨by rw [List.length_append, List.length_append, hlen, hlen'], ?_⟩
      by_cases heq : d ++ d' = a ++ a'
      · obtain ⟨hd, hd'⟩ := List.append_inj heq hlen
        left
        rw [hplain.resolve_right (not_not_intro hd), hplain'.resolve_right (not_not_intro hd')]
        rfl
      · exact .inr heq

theorem Verdict.bare (h : b = false → p = true) : Verdict b [] [] p := by
  cases b with
  | true => exact .inl rfl
  | false => exact .inr ⟨rfl, .inl (h rfl)⟩

theorem Verdict.weaken {q : Bool} (h : Verdict b d a p) (hpq : p = true → q = true) :
    Verdict b d a q := by
  rcases h with hb | ⟨hlen, hplain | hne⟩
  · exact .inl hb
  · exact .inr ⟨hlen, .inl (hpq hplain)⟩
  · exact .inr ⟨hlen, .inr hne⟩

theorem Verdict.member {d' a' : List Nat} {plain more : Bool} (h : Verdict b d a plain)
    (inWith : Bool) (p : Pattern) (h' : Verdict c d' a' more) :
    Verdict (!p.unprobed inWith || (b || c)) ([] ++ (d ++ d')) (a ++ a')
      (p.unprobed inWith && plain && more) := by
  have hprobe : Verdict (!p.unprobed inWith) [] [] (p.unprobed inWith) :=
    .bare fun h => by rw [← Bool.not_not (p.unprobed inWith), h]; rfl
  have hall := hprobe.append (h.append h')
  rw [← Bool.and_assoc] at hall
  exact hall

/-- A declaration's record and, when it is compiled, the assignment's. -/
def Told (declared : JsValue → Run Record Unit) (assigned : Option (JsValue → Run Record Unit))
    (plain : Bool) : Prop :=
  ∃ b d, (∀ src, Records (declared src) b d) ∧ ∀ code, assigned = some code →
    ∃ a, (∀ src, Records (code src) false a) ∧ Verdict b d a plain

mutual

theorem told_pattern {fuel : Nat} (hfuel : 0 < fuel) (inWith : Bool) : ∀ (p : Pattern)
    (known : Bool), Told (declare recorder fuel inWith p known) (assignTarget recorder p)
      (p.plain inWith known)
  | .name n, _ => by
    refine ⟨false, [], fun src => .pure (), fun code hcode => ?_⟩
    cases hcode
    exact ⟨[], fun src => .pure (), .bare fun _ => rfl⟩
  | .object props, _ => by
    obtain ⟨b, d, hd, hassign⟩ := told_props hfuel inWith props
    refine ⟨b, d, fun src => (records_requireWhen _ src).quiet fun _ => hd src [], ?_⟩
    intro code hcode
    obtain ⟨inner, hinner, hsome⟩ := Option.bind_eq_some_iff.mp hcode
    cases hsome
    obtain ⟨a, ha, hverdict⟩ := hassign inner hinner
    exact ⟨a, fun src => (records_requireWhen _ src).quiet fun _ => ha src, hverdict⟩
  | .array elems, known => by
    by_cases hknown : known = true
    · obtain ⟨b, d, hd, hassign⟩ := told_fixed hfuel inWith elems 0 []
      refine ⟨b, d, fun src => ?_, fun code hcode => ?_⟩
      · rw [declare, if_pos hknown]
        exact (records_requireWhen _ src).quiet fun _ => hd src
      · obtain ⟨inner, hinner, hsome⟩ := Option.bind_eq_some_iff.mp hcode
        cases hsome
        obtain ⟨a, ha, hverdict⟩ := hassign inner hinner
        refine ⟨a, fun src => (records_requireWhen _ src).quiet fun _ => ha src, ?_⟩
        refine hverdict.weaken fun hplain => ?_
        rw [Pattern.plain, hknown, hplain, Bool.and_true, Bool.or_true]
    · by_cases hholes : elems.allHoles = true
      · refine ⟨false, [], fun src => ?_, fun code hcode => ?_⟩
        · rw [declare, if_neg hknown, declareArray, if_pos hholes]
          exact (records_coercible src).quiet fun _ => .pure ()
        · rw [assignTarget, assignElems_allHoles recorder elems 0 hholes] at hcode
          cases hcode
          refine ⟨[], fun src => (records_requireWhen _ src).quiet fun _ => .pure (), ?_⟩
          exact .bare fun _ => by rw [Pattern.plain, hholes, Bool.true_or]
      · obtain ⟨b, d, hd⟩ := records_elems hfuel inWith elems
        refine ⟨true, d, fun src => ?_, fun code hcode => ?_⟩
        · rw [declare, if_neg hknown]
          exact records_declareArray hholes (fun iter restArray => hd iter restArray _) src
        · obtain ⟨inner, hinner, hsome⟩ := Option.bind_eq_some_iff.mp hcode
          cases hsome
          obtain ⟨b', d', -, hassign⟩ := told_fixed hfuel inWith elems 0 []
          obtain ⟨a, ha, -⟩ := hassign inner hinner
          exact ⟨a, fun src => (records_requireWhen _ src).quiet fun _ => ha src, .inl rfl⟩
  | .withDefault p default, known => by
    obtain ⟨b, d, hd, hassign⟩ := told_pattern hfuel inWith p (known && default.isArrayLiteral)
    refine ⟨b, d, fun src => (records_lowerDefault src default).quiet hd, fun code hcode => ?_⟩
    obtain ⟨inner, hinner, hsome⟩ := Option.bind_eq_some_iff.mp hcode
    cases hsome
    obtain ⟨a, ha, hverdict⟩ := hassign inner hinner
    exact ⟨a, fun src => (records_lowerDefault src default).quiet ha, hverdict⟩

theorem told_props {fuel : Nat} (hfuel : 0 < fuel) (inWith : Bool) : ∀ (props : Props),
    ∃ b d, (∀ src excluded, Records (declareProps recorder fuel inWith props src excluded) b d) ∧
      ∀ code, assignProps recorder props = some code →
        ∃ a, (∀ src, Records (code src) false a) ∧ Verdict b d a (props.plain inWith)
  | .nil => by
    refine ⟨false, [], fun src excluded => .pure (), fun code hcode => ?_⟩
    cases hcode
    exact ⟨[], fun src => .pure (), .bare fun _ => rfl⟩
  | .rest p => by
    obtain ⟨b, d, hd, -⟩ := told_pattern hfuel inWith p false
    refine ⟨true, d, fun src excluded => ?_, fun code hcode => ?_⟩
    · exact (Records.noted (JsValue.smi 0)).noting hd
    · cases hcode
      exact ⟨[], fun src => .pure (), .inl rfl⟩
  | .prop (.text t) p more => by
    obtain ⟨b, d, hd, hassign⟩ := told_pattern hfuel inWith p false
    obtain ⟨c, e, he, hmore⟩ := told_props hfuel inWith more
    refine ⟨!p.unprobed inWith || (b || c), [] ++ (d ++ e), fun src excluded => ?_,
      fun code hcode => ?_⟩
    · exact (records_probe inWith p).bind fun _ => (Records.pure (JsValue.smi 0)).quiet fun tmp =>
        (hd tmp).bind fun _ => he src _
    · obtain ⟨first, hfirst, hcode⟩ := Option.bind_eq_some_iff.mp hcode
      obtain ⟨inner, hinner, hsome⟩ := Option.bind_eq_some_iff.mp hcode
      cases hsome
      obtain ⟨a, ha, hverdict⟩ := hassign first hfirst
      obtain ⟨a', ha', hverdict'⟩ := hmore inner hinner
      refine ⟨a ++ a', fun src => ?_, ?_⟩
      · exact (Records.pure (JsValue.smi 0)).quiet fun raw => (ha raw).bind fun _ => ha' src
      · exact hverdict.member inWith p hverdict'
  | .prop (.computed e) p more => by
    obtain ⟨b, d, hd, -⟩ := told_pattern hfuel inWith p false
    obtain ⟨c, d', hd', -⟩ := told_props hfuel inWith more
    refine ⟨true, [] ++ (d ++ d'), fun src excluded => ?_, fun code hcode => by cases hcode⟩
    have hkey : Records (declaredKey recorder (.computed e)) true [] :=
      (Records.pure (JsValue.smi 0)).quiet fun k => (Records.noted k).bind fun _ => .pure _
    refine hkey.noting (b := !p.unprobed inWith || (b || c)) fun k => ?_
    refine (records_probe inWith p).bind fun _ => ?_
    refine (Records.pure (JsValue.smi 0)).quiet fun tmp => ?_
    exact (hd tmp).bind fun _ => hd' src (excluded ++ [k])

theorem told_fixed {fuel : Nat} (hfuel : 0 < fuel) (inWith : Bool) : ∀ (elems : Elems) (idx : Nat)
    (literal : List Bool), Told (fun src => declareFixed recorder fuel inWith elems src idx literal)
      (assignElems recorder elems idx) (elems.plain inWith idx literal)
  | .nil, _, _ => by
    refine ⟨false, [], fun src => .pure (), fun code hcode => ?_⟩
    cases hcode
    exact ⟨[], fun src => .pure (), .bare fun _ => rfl⟩
  | .rest p, idx, _ => by
    obtain ⟨b, d, hd, hassign⟩ := told_pattern hfuel inWith p true
    refine ⟨false || b, [idx % 65536] ++ d, fun src => ?_, fun code hcode => ?_⟩
    · exact (records_copyArrayRest src _).bind hd
    · obtain ⟨inner, hinner, hsome⟩ := Option.bind_eq_some_iff.mp hcode
      cases hsome
      obtain ⟨a, ha, hverdict⟩ := hassign inner hinner
      refine ⟨[min idx 65535] ++ a, fun src => (records_copyArrayRest src _).bind ha, ?_⟩
      have hstart : Verdict false [idx % 65536] [min idx 65535] (idx % 65536 == min idx 65535) := by
        refine .inr ⟨rfl, ?_⟩
        by_cases heq : idx % 65536 = min idx 65535
        · exact .inl (beq_iff_eq.mpr heq)
        · exact .inr fun h => heq (List.singleton_inj.mp h)
      exact hstart.append hverdict
  | .hole more, idx, literal => told_fixed hfuel inWith more (idx + 1) literal
  | .elem p more, idx, literal => by
    obtain ⟨b, d, hd, hassign⟩ := told_pattern hfuel inWith p (literal.getD idx false)
    obtain ⟨c, e, he, hmore⟩ := told_fixed hfuel inWith more (idx + 1) literal
    refine ⟨!p.unprobed inWith || (b || c), [] ++ (d ++ e), fun src => ?_, fun code hcode => ?_⟩
    · exact (records_probe inWith p).bind fun _ => (Records.pure (JsValue.smi 0)).quiet fun value =>
        (hd value).bind fun _ => he src
    · obtain ⟨first, hfirst, hcode⟩ := Option.bind_eq_some_iff.mp hcode
      obtain ⟨inner, hinner, hsome⟩ := Option.bind_eq_some_iff.mp hcode
      cases hsome
      obtain ⟨a, ha, hverdict⟩ := hassign first hfirst
      obtain ⟨a', ha', hverdict'⟩ := hmore inner hinner
      refine ⟨a ++ a', fun src => ?_, ?_⟩
      · exact (Records.pure (JsValue.smi 0)).quiet fun raw => (ha raw).bind fun _ => ha' src
      · exact hverdict.member inWith p hverdict'

theorem records_elems {fuel : Nat} (hfuel : 0 < fuel) (inWith : Bool) : ∀ (elems : Elems),
    ∃ b d, ∀ iter restArray lastDone,
      Records (declareElems recorder fuel inWith elems iter restArray lastDone) b d
  | .nil => ⟨false, [], fun _ _ _ => .pure _⟩
  | .rest p => by
    obtain ⟨b, d, hd, -⟩ := told_pattern hfuel inWith p false
    refine ⟨b, d, fun iter restArray lastDone => ?_⟩
    exact (records_restLoop iter restArray hfuel).quiet fun _ =>
      (hd restArray).ending fun _ => .pure _
  | .hole more => by
    obtain ⟨b, d, hd⟩ := records_elems hfuel inWith more
    refine ⟨b, d, fun iter restArray lastDone => ?_⟩
    exact (Records.pure (JsValue.smi 0, JsValue.smi 0)).quiet fun step =>
      (records_ifTrue (.pure ())).quiet fun _ => hd iter restArray step.2
  | .elem p more => by
    obtain ⟨b, d, hd, -⟩ := told_pattern hfuel inWith p false
    obtain ⟨c, e, he⟩ := records_elems hfuel inWith more
    refine ⟨(!p.unprobed inWith || b) || c, ([] ++ d) ++ e, fun iter restArray lastDone => ?_⟩
    exact (Records.pure (JsValue.smi 0, JsValue.smi 0)).quiet fun step =>
      (records_ifTrue ((records_probe inWith p).bind fun _ => hd .undefined)).bind fun _ =>
        he iter restArray step.2

end

/-! ## §3 Targets, names and closing -/

theorem Told.plain {declared : JsValue → Run Record Unit}
    {assigned : Option (JsValue → Run Record Unit)} {plain : Bool} {code : JsValue → Run Record Unit}
    (h : Told declared assigned plain) (hcode : assigned = some code) {src : JsValue}
    (heq : declared src (false, []) = code src (false, [])) : plain = true := by
  obtain ⟨b, d, hd, hassign⟩ := h
  obtain ⟨a, ha, hverdict⟩ := hassign code hcode
  obtain ⟨u, hu⟩ := hd src (false, [])
  obtain ⟨v, hv⟩ := ha src (false, [])
  rw [hu, hv] at heq
  simp only [Bool.false_or, List.nil_append, Res.ok.injEq, Prod.mk.injEq] at heq
  obtain ⟨-, rfl, rfl⟩ := heq
  rcases hverdict with hnoted | ⟨-, hplain | hne⟩
  · cases hnoted
  · exact hplain
  · exact absurd rfl hne

theorem told_literal (hfuel : 0 < fuel) (inWith : Bool) (literal : List Bool) (elems : Elems) :
    Told (varDecl recorder fuel inWith (some literal) (.array elems))
      (assignTarget recorder (.array elems))
      (declPlain inWith (some literal) (.array elems)) := by
  obtain ⟨b, d, hd, hassign⟩ := told_fixed hfuel inWith elems 0 literal
  refine ⟨b, d, fun src => (records_requireWhen _ src).quiet fun _ => hd src, ?_⟩
  intro code hcode
  obtain ⟨inner, hinner, hsome⟩ := Option.bind_eq_some_iff.mp hcode
  cases hsome
  obtain ⟨a, ha, hverdict⟩ := hassign inner hinner
  refine ⟨a, fun src => (records_requireWhen _ src).quiet fun _ => ha src, ?_⟩
  exact hverdict.weaken fun hplain => by rw [declPlain, hplain, Bool.or_true]

theorem told_varDecl (hfuel : 0 < fuel) (inWith : Bool) (literal : Option (List Bool))
    (p : Pattern) :
    Told (varDecl recorder fuel inWith literal p) (assignTarget recorder p)
      (declPlain inWith literal p) := by
  cases literal with
  | none => cases p <;> exact told_pattern hfuel inWith _ false
  | some literal =>
    cases p with
    | array elems => exact told_literal hfuel inWith literal elems
    | name n => exact told_pattern hfuel inWith _ false
    | object props => exact told_pattern hfuel inWith _ false
    | withDefault p default => exact told_pattern hfuel inWith _ false

theorem assign_literal_eq (M : Machine W) (inWith : Bool) (literal : List Bool) (elems : Elems)
    (h : declPlain inWith (some literal) (.array elems) = true) :
    ∃ code, assignTarget M (.array elems) = some code ∧
      ∀ fuel src, varDecl M fuel inWith (some literal) (.array elems) src = code src := by
  rw [declPlain, Bool.or_eq_true] at h
  by_cases hholes : elems.allHoles = true
  · refine ⟨_, by rw [assignTarget, assignElems_allHoles M elems 0 hholes]; rfl,
      fun fuel src => ?_⟩
    rw [varDecl, declareFixed_allHoles M fuel inWith elems src 0 literal hholes]
  · obtain ⟨code, hcode, heq⟩ := assignElems_eq M inWith elems 0 literal (h.resolve_left hholes)
    refine ⟨_, by rw [assignTarget, hcode]; rfl, fun fuel src => ?_⟩
    rw [varDecl, heq]

theorem assign_varDecl_eq (M : Machine W) (inWith : Bool) (literal : Option (List Bool))
    (p : Pattern) (h : declPlain inWith literal p = true) :
    ∃ code, assignTarget M p = some code ∧
      ∀ fuel src, varDecl M fuel inWith literal p src = code src := by
  cases literal with
  | none => cases p <;> exact assign_eq M inWith _ false h
  | some literal =>
    cases p with
    | array elems => exact assign_literal_eq M inWith literal elems h
    | name n => exact assign_eq M inWith _ false h
    | object props => exact assign_eq M inWith _ false h
    | withDefault p default => exact assign_eq M inWith _ false h

/-- **An assignment takes a pattern apart as the declaration does if and only if the pattern
is plain.** -/
theorem destructuring_iff (inWith : Bool) (literal : Option (List Bool)) (p : Pattern) :
    AssignHeld inWith literal p ↔ declPlain inWith literal p = true := by
  constructor
  · intro h
    obtain ⟨code, hcode, hruns⟩ := h Record recorder
    obtain ⟨n, hn⟩ := hruns (.smi 0) (false, [])
    have htold := told_varDecl (Nat.succ_pos n) inWith literal p
    exact htold.plain hcode (hn (n + 1) (Nat.le_succ n))
  · intro h W M
    obtain ⟨code, hcode, heq⟩ := assign_varDecl_eq M inWith literal p h
    exact ⟨code, hcode, fun src w => ⟨0, fun fuel _ => by rw [heq]⟩⟩

/-- `[a] = v` takes no iterator of `v`. -/
theorem not_assign_iterates : ¬ ∀ inWith literal p, AssignHeld inWith literal p := by
  intro h
  obtain ⟨code, hcode, hruns⟩ :=
    h false none (.array (.elem (.name "a") .nil)) Record recorder
  cases hcode
  obtain ⟨n, hn⟩ := hruns (.smi 0) (false, [])
  cases hn (n + 1) (Nat.le_succ n)

end V12.Destructuring
