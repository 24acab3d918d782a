/-
V12.Bccompiler.ChainTheorems — when the code of an optional chain does what its
evaluation does.

The guard of a `?.` link compares with `==`, so an object in front of one is
converted to a primitive: `Calm` are the values it is right on. `step_run` is
one link behind its guard, `exec_links` the loop over the links.
-/
import V12.Bccompiler.SparedTemps

namespace V12.Expression

open V12.Heap (JsValue)
open V12.Bytecode (BranchOp Opcode)
open V12.Interp (Coercions)

variable {P : Plans} {W α β : Type}
variable {lo hi dst t r exit cur base forced slot window : Nat} {M : Machine W} {m : Emit P W α}
  {cx cx' cx₁ : FnCtx P} {f : Frame W} {code : List (Item W)} {a : At P W} {s : Spot}
  {kind : LinkKind P W} {links : List (Link P W)}

/-! ## §1 Parts -/

theorem Part.spared (p : Part P W) (ht : t ≤ cx.tempTop) :
    Spared t cx p.emit fun r cx' => Fresh cx r cx' := by
  intro r cx' code hsome
  obtain ⟨hemitted, hfresh⟩ := p.fresh cx.labels cx (Nat.le_refl _) r cx' code hsome
  exact ⟨fun item hitem => (p.spares cx r cx' code hsome item hitem).mono ht, hemitted.temps, hfresh⟩

/-! ## §2 The guard -/

def compared (cx : FnCtx P) (f : Frame W) (result : JsValue) (w : W) : Frame W :=
  { f.write cx.tempTop .null with world := w }.write (cx.tempTop + 1) result

theorem nullishExit_eq_some {v : Nat} (h : nullishExit v dst exit cx = some ((), cx', code)) :
    cx' = { cx.addTemps 2 with labels := cx.labels + 1 } ∧
      code = [.load cx.tempTop .null,
        .apply (.opcode .eq) (some (cx.tempTop + 1)) [v, cx.tempTop],
        .branch .jumpIfFalse (cx.tempTop + 1) cx.labels, .load dst .undefined,
        .branch .jump 0 exit, .bind cx.labels] := by
  unfold nullishExit nullishCmp at h
  obtain ⟨cmp, cx₁, cmpCode, rest₁, hcmp, hrest₁, rfl⟩ := bind_eq_some.mp h
  obtain ⟨null, cx₂, code₂, rest₂, hnull, hrest₂, rfl⟩ := bind_eq_some.mp hcmp
  obtain ⟨_, cx₃, code₃, rest₃, hload, hrest₃, rfl⟩ := bind_eq_some.mp hrest₂
  obtain ⟨t, cx₄, code₄, rest₄, ht, hrest₄, rfl⟩ := bind_eq_some.mp hrest₃
  obtain ⟨_, cx₅, code₅, rest₅, heq, hpure, rfl⟩ := bind_eq_some.mp hrest₄
  obtain ⟨keep, cx₆, code₆, rest₆, hlabel, hrest₆, rfl⟩ := bind_eq_some.mp hrest₁
  obtain ⟨_, cx₇, code₇, rest₇, hbranch, hrest₇, rfl⟩ := bind_eq_some.mp hrest₆
  obtain ⟨_, cx₈, code₈, rest₈, hundef, hrest₈, rfl⟩ := bind_eq_some.mp hrest₇
  obtain ⟨_, cx₉, code₉, rest₉, hjump, hbind, rfl⟩ := bind_eq_some.mp hrest₈
  obtain ⟨rfl, htop₂, hlabels₂, rfl⟩ := newTemps_eq_some hnull
  cases hload
  obtain ⟨rfl, htop₄, hlabels₄, rfl⟩ := newTemps_eq_some ht
  cases heq
  cases hpure
  cases hlabel
  cases hbranch
  cases hundef
  cases hjump
  cases hbind
  have hcmpTop : cx₂.tempTop = cx.tempTop + 1 := by omega
  have hkeep : cx₁.labels = cx.labels := by omega
  refine ⟨?_, by simp only [List.nil_append, List.append_nil, List.cons_append, hcmpTop, hkeep]⟩
  have htop : cx₁.tempTop = cx.tempTop + 2 := by omega
  simp only [FnCtx.mk.injEq]
  exact ⟨htop, by omega⟩

theorem exec_nullishExit (M : ChainMachine W) {v : Nat}
    (h : nullishExit v dst exit cx = some ((), cx', code)) (hv : v < cx.tempTop)
    (hexit : exit < cx.labels) (f : Frame W) :
    exec M.toMachine code (.running f) =
      match M.toPrimitiveWithHint .default (f.regs v) f.world with
      | none => .left
      | some (p, w) =>
        if isNullish p then .seeking exit ((compared cx f (.bool true) w).write dst .undefined)
        else .running (compared cx f (.bool false) w) := by
  obtain ⟨-, rfl⟩ := nullishExit_eq_some h
  have hargs : [v, cx.tempTop].map (f.write cx.tempTop .null).regs = [f.regs v, .null] := by
    rw [List.map_cons, List.map_singleton, write_regs_self, write_regs_of_ne _ _ (Nat.ne_of_lt hv)]
  have hworld : (f.write cx.tempTop .null).world = f.world := rfl
  have hne : cx.labels ≠ exit := Nat.ne_of_gt hexit
  simp only [exec, List.foldl_cons, List.foldl_nil, Item.exec, Item.run, hargs, hworld,
    M.apply_eq_null]
  cases hprim : M.toPrimitiveWithHint .default (f.regs v) f.world with
  | none => rfl
  | some res =>
    obtain ⟨p, w⟩ := res
    simp only [Option.map_some, taken, write_regs_self, M.toBoolean_bool]
    cases isNullish p with
    | true =>
      simp only [Bool.not_true, Bool.false_eq_true, if_false, if_true, if_neg hne]
      rfl
    | false =>
      simp only [Bool.not_false, if_true, Bool.false_eq_true, if_false]
      rfl

/-- The code keeps the evaluation's value and the receiver in temporaries in use. -/
structure Placed (a : At P W) : Prop where
  low : P.localsEnd ≤ a.spot.cur
  high : a.spot.cur < a.cx.tempTop
  value : a.frame.regs a.spot.cur = a.value
  recv : ∀ r, a.spot.recv = some r → P.localsEnd ≤ r ∧ r < a.cx.tempTop

def Ready (kind : LinkKind P W) (a : At P W) : Prop :=
  match kind with
  | .call _ => (a.spot.recv.map a.frame.regs).getD .undefined = a.this
  | _ => a.lookup.getD a.value = a.value

/-- Ready for any link. -/
structure Linked (a : At P W) : Prop extends Placed a where
  receiver : (a.spot.recv.map a.frame.regs).getD .undefined = a.this
  lookup : a.lookup.getD a.value = a.value

theorem Linked.ready (h : Linked a) (kind : LinkKind P W) : Ready kind a := by
  cases kind with
  | call args => exact h.receiver
  | _ => exact h.lookup

/-- **The guard is right exactly on calm values.** -/
theorem guardRight_iff (M : ChainMachine W) (hp : Placed a) (hexit : exit < a.cx.labels)
    (h : nullishExit a.spot.cur dst exit a.cx = some ((), cx', code)) :
    GuardRight M.toMachine a ↔ Calm M a.value a.frame.world := by
  constructor
  · intro hright
    have hguard := hright dst exit cx' code hexit h
    have hexec := exec_nullishExit M h hp.high hexit a.frame
    rw [hp.value] at hexec
    cases hprim : M.toPrimitiveWithHint .default a.value a.frame.world with
    | none =>
      rw [hprim] at hexec
      rw [hexec] at hguard
      split at hguard
      case isTrue =>
        obtain ⟨g, hg, -⟩ := hguard
        cases hg
      case isFalse => cases hguard
    | some res =>
      obtain ⟨p, w⟩ := res
      rw [hprim] at hexec
      simp only at hexec
      rw [hexec] at hguard
      split at hguard
      case isTrue hnull =>
        obtain ⟨g, hg, hworld⟩ := hguard
        split at hg
        case isTrue hp =>
          cases hg
          cases hworld
          exact ⟨p, hprim, by rw [hp, hnull]⟩
        case isFalse => cases hg
      case isFalse hnull =>
        split at hguard
        case isTrue => cases hguard
        case isFalse hp =>
          have hworld : w = a.frame.world := congrArg Frame.world (Mode.running.inj hguard)
          subst hworld
          exact ⟨p, hprim, by rw [Bool.eq_false_iff.mpr hp, Bool.eq_false_iff.mpr hnull]⟩
  · rintro ⟨p, hprim, hnull⟩ dst' exit' cx'' code' hexit' h'
    have hexec := exec_nullishExit M h' hp.high hexit' a.frame
    rw [hp.value, hprim] at hexec
    simp only [hnull] at hexec
    rw [hexec]
    cases isNullish a.value with
    | true => exact ⟨_, rfl, rfl⟩
    | false => rfl

theorem enter_placed (h : Placed a) (isOptional : Bool) :
    Placed (a.enter isOptional) := by
  cases isOptional with
  | false => exact h
  | true =>
    have hhigh := h.high
    refine ⟨h.low, Nat.lt_of_lt_of_le hhigh (Nat.le_add_right _ _), ?_, fun r hr => ?_⟩
    · show (Frame.write _ _ _).regs a.spot.cur = a.value
      rw [write_regs_of_ne _ _ (by omega), write_regs_of_ne _ _ (by omega)]
      exact h.value
    · obtain ⟨hlow, hlt⟩ := h.recv r hr
      exact ⟨hlow, Nat.lt_of_lt_of_le hlt (Nat.le_add_right _ _)⟩

theorem enter_receiver (h : Placed a) (isOptional : Bool) :
    ((a.enter isOptional).spot.recv.map (a.enter isOptional).frame.regs) =
      a.spot.recv.map a.frame.regs := by
  cases isOptional with
  | false => rfl
  | true =>
    show a.spot.recv.map (Frame.write _ _ _).regs = _
    cases hrecv : a.spot.recv with
    | none => rfl
    | some r =>
      have hlt := (h.recv r hrecv).2
      simp only [Option.map_some]
      rw [write_regs_of_ne _ _ (by omega), write_regs_of_ne _ _ (by omega)]

theorem enter_this (isOptional : Bool) (a : At P W) : (a.enter isOptional).this = a.this := by
  cases isOptional <;> rfl

theorem enter_ready (h : Placed a) (isOptional : Bool) (kind : LinkKind P W) :
    Ready kind (a.enter isOptional) ↔ Ready kind a := by
  cases kind with
  | call args =>
    show _ = _ ↔ _ = _
    rw [enter_receiver h isOptional, enter_this]
  | _ => cases isOptional <;> exact Iff.rfl

/-! ## §3 One link -/

theorem runFrom_newTemp_eq (M : Machine W) {n : Nat}
    (h : (newTemps n : Emit P W Nat) cx = some (r, cx', code)) (f : Frame W) :
    (newTemps n : Emit P W Nat).runFrom M cx f = some (cx.tempTop, cx.addTemps n, f) ∧
      cx' = cx.addTemps n := by
  unfold newTemps at h
  split at h
  case isTrue hroom =>
    cases h
    refine ⟨?_, rfl⟩
    unfold Emit.runFrom newTemps
    rw [if_pos hroom]
    rfl
  case isFalse => cases h

theorem disciplined_member (cur : Nat) (k : Nat) (cx : FnCtx P) :
    Disciplined (W := W) cx.labels cx (do
      let nxt ← newTemp
      emit (.apply (.opcode .getProperty) (some nxt) [cur, k])
      pure (⟨nxt, some cur⟩ : Spot)) fun _ _ => True := by
  refine disciplined_newTemp.bind fun nxt cx₁ _ _ hnxt => ?_
  exact (disciplined_applyTo _ _ hnxt.2).bind fun _ _ _ _ _ => .pure trivial

theorem runFrom_lookup (M : Machine W) {k : Nat} (h : (do
      let nxt ← newTemp
      emit (.apply (.opcode .getProperty) (some nxt) [cur, k])
      pure (⟨nxt, some cur⟩ : Spot) : Emit P W Spot) cx = some (s, cx', code)) (f : Frame W) :
    (do
      let nxt ← newTemp
      emit (.apply (.opcode .getProperty) (some nxt) [cur, k])
      pure (⟨nxt, some cur⟩ : Spot) : Emit P W Spot).runFrom M cx f =
        (M.apply (.opcode .getProperty) [f.regs cur, f.regs k] f.world).map fun r =>
          (⟨cx.tempTop, some cur⟩, cx.addTemps 1, { f with world := r.2 }.write cx.tempTop r.1) := by
  obtain ⟨nxt, cx₁, code₁, rest₁, hnew, hrest₁, rfl⟩ := bind_eq_some.mp h
  obtain ⟨_, cx₂, code₂, rest₂, happly, hpure, rfl⟩ := bind_eq_some.mp hrest₁
  obtain ⟨rfl, -, -, -⟩ := newTemps_eq_some hnew
  obtain ⟨hrun, rfl⟩ := runFrom_newTemp_eq M hnew f
  have hfresh : Disciplined (W := W) cx.labels cx newTemp fun r cx' => Fresh cx r cx' :=
    disciplined_newTemp
  rw [runFrom_bind_eq M hfresh, show (newTemp : Emit P W Nat).runFrom M cx f = _ from hrun,
    Option.bind_some,
    runFrom_bind_eq M (R := fun _ _ => True)
      (disciplined_applyTo _ _ (Nat.lt_succ_self cx.tempTop)), runFrom_applyTo_eq]
  · simp only [List.map_cons, List.map_nil]
    cases M.apply (.opcode .getProperty) [f.regs cur, f.regs k] f.world with
    | none => rfl
    | some r => rfl
  · exact fun _ _ _ _ => .pure trivial
  · intro nxt cx₂ _ hnxt
    exact (disciplined_applyTo _ _ hnxt.2).bind fun _ _ _ _ _ => .pure trivial

theorem linked_member {v : JsValue} {w : W} (hp : Placed a) (hvalue : f.regs a.spot.cur = a.value)
    (hlook : a.lookup.getD a.value = a.value) (htop : a.cx.tempTop ≤ cx₁.tempTop) :
    Linked (⟨v, some (a.lookup.getD a.value), none, ⟨cx₁.tempTop, some a.spot.cur⟩,
      cx₁.addTemps 1, { f with world := w }.write cx₁.tempTop v⟩ : At P W) := by
  have hhigh := hp.high
  have habove := cx₁.above
  refine ⟨⟨Nat.le_of_lt habove, Nat.lt_succ_self _, write_regs_self _ _ _, fun r hr => ?_⟩, ?_, rfl⟩
  · cases hr
    have hlow := hp.low
    show P.localsEnd ≤ a.spot.cur ∧ a.spot.cur < cx₁.tempTop + 1
    omega
  · show (Frame.write _ _ _).regs a.spot.cur = a.lookup.getD a.value
    rw [write_regs_of_ne _ _ (by omega), hlook]
    exact hvalue

theorem member_run (M : Machine W) (key : Part P W) (hp : Placed a)
    (hlook : a.lookup.getD a.value = a.value)
    (h : emitMember key.emit a.spot a.cx = some (s, cx', code)) :
    (emitMember key.emit a.spot).runFrom M a.cx a.frame =
        (stepMember M key.emit a).map (fun a' => (a'.spot, a'.cx, a'.frame)) ∧
      ∀ a', stepMember M key.emit a = some a' → Linked a' := by
  obtain ⟨k, cx₁, keyCode, rest, hkey, hrest, -⟩ := bind_eq_some.mp h
  have hwhole : (emitMember key.emit a.spot).runFrom M a.cx a.frame =
      (key.emit.runFrom M a.cx a.frame).bind fun r => (do
        let nxt ← newTemp
        emit (.apply (.opcode .getProperty) (some nxt) [a.spot.cur, r.1])
        pure (⟨nxt, some a.spot.cur⟩ : Spot) : Emit P W Spot).runFrom M r.2.1 r.2.2 :=
    runFrom_bind_eq M (key.fresh a.cx.labels a.cx (Nat.le_refl _))
      (fun k cx₂ _ _ => disciplined_member a.spot.cur k cx₂) a.frame
  cases hrun : key.emit.runFrom M a.cx a.frame with
  | none =>
    have hstep : stepMember M key.emit a = none := by rw [stepMember, hrun]
    rw [hwhole, hrun, hstep]
    exact ⟨rfl, fun a' ha' => by cases ha'⟩
  | some res =>
    obtain ⟨k', cx₁', f₁⟩ := res
    obtain ⟨keyCode', hkey'⟩ := exists_of_runFrom hrun
    rw [hkey] at hkey'
    cases hkey'
    have hvalue : f₁.regs a.spot.cur = a.value :=
      ((key.spared (Nat.le_refl _)).regs hrun hp.low hp.high).trans hp.value
    have htop := ((key.fresh a.cx.labels a.cx (Nat.le_refl _)).of_runFrom hrun).1
    have hlookup := runFrom_lookup M hrest f₁
    have hstep : stepMember M key.emit a =
        (M.apply (.opcode .getProperty) [a.value, f₁.regs k] f₁.world).map fun r =>
          (⟨r.1, some (a.lookup.getD a.value), none, ⟨cx₁.tempTop, some a.spot.cur⟩,
            cx₁.addTemps 1, { f₁ with world := r.2 }.write cx₁.tempTop r.1⟩ : At P W) := by
      rw [stepMember, hrun]
      simp only [getWith, if_pos hlook]
      cases M.apply (.opcode .getProperty) [a.value, f₁.regs k] f₁.world with
      | none => rfl
      | some r => rfl
    rw [hwhole, hrun, Option.bind_some, hlookup, hvalue, hstep, Option.map_map]
    refine ⟨rfl, fun a' ha' => ?_⟩
    obtain ⟨r, -, rfl⟩ := Option.map_eq_some_iff.mp ha'
    exact linked_member hp hvalue hlook htop

/-! ## §4 Calls -/

theorem disciplined_emitReceiver (recv : Option Nat) (hdst : dst < cx.tempTop) :
    Disciplined (W := W) base cx (emitReceiver recv dst) fun _ _ => True := by
  cases recv with
  | none => exact disciplined_load _ hdst
  | some r => exact disciplined_move r hdst

theorem disciplined_emitWindow (s : Spot) (argc : Nat) :
    Disciplined (W := W) base cx (emitWindow s argc) fun window cx' =>
      window = cx.tempTop ∧ window + 2 + argc ≤ cx'.tempTop := by
  unfold emitWindow
  refine (disciplined_newTemps _).bind fun window cx₁ _ _ hwindow => ?_
  obtain ⟨rfl, htop⟩ := hwindow
  refine (disciplined_move _ (by omega)).bind fun _ cx₂ t₂ _ _ => ?_
  exact (disciplined_emitReceiver _ (by omega)).bind fun _ cx₃ t₃ _ _ => .pure ⟨rfl, by omega⟩

theorem disciplined_exprInto (e : Part P W) (hbase : base ≤ cx.labels)
    (hforced : forced < cx.tempTop) :
    Disciplined base cx (exprInto e.emit forced) fun _ _ => True := by
  unfold exprInto
  refine (e.fresh base cx hbase).bind fun r cx₁ t₁ _ _ => ?_
  split
  case isTrue => exact .pure trivial
  case isFalse => exact disciplined_move r (by omega)

theorem disciplined_emitArgs (args : List (Arg P W)) (hbase : base ≤ cx.labels)
    (hslot : slot + args.length ≤ cx.tempTop) :
    Disciplined base cx (emitArgs slot args) fun _ _ => True := by
  induction args generalizing slot cx with
  | nil => exact .pure trivial
  | cons arg args ih =>
    rw [List.length_cons] at hslot
    refine (disciplined_exprInto arg.value hbase (by omega)).bind fun _ cx₁ t₁ l₁ _ => ?_
    exact ih (by omega) (by omega)

theorem disciplined_emitAppend (arr : Nat) (arg : Arg P W) (hbase : base ≤ cx.labels) :
    Disciplined base cx (emitAppend arr arg) fun _ _ => True := by
  unfold emitAppend
  refine (arg.value.fresh base cx hbase).bind fun src cx₁ t₁ l₁ _ => ?_
  split
  case isTrue => exact (disciplined_effect _ _).bind fun _ _ _ _ _ => disciplined_effect _ _
  case isFalse =>
    refine (disciplined_loadStrKey _).bind fun key cx₂ _ _ _ => ?_
    refine disciplined_newTemp.bind fun len cx₃ _ _ hlen => ?_
    exact (disciplined_applyTo _ _ hlen.2).bind fun _ _ _ _ _ => disciplined_effect _ _

theorem disciplined_appends (arr : Nat) (args : List (Arg P W)) (hbase : base ≤ cx.labels) :
    Disciplined base cx (args.forM (emitAppend arr)) fun _ _ => True := by
  induction args generalizing cx with
  | nil => exact .pure trivial
  | cons arg args ih =>
    show Disciplined base cx (emitAppend arr arg >>= fun _ => args.forM (emitAppend arr)) _
    exact (disciplined_emitAppend arr arg hbase).bind fun _ cx₁ _ l₁ _ => ih (by omega)

theorem disciplined_buildArgsArray (args : List (Arg P W)) (hbase : base ≤ cx.labels) :
    Disciplined base cx (buildArgsArray args) fun arr cx' => Fresh cx arr cx' := by
  unfold buildArgsArray
  refine disciplined_newTemp.bind fun arr cx₁ _ l₁ harr => ?_
  refine (disciplined_applyTo _ _ harr.2).bind fun _ cx₂ t₂ l₂ _ => ?_
  exact (disciplined_appends arr args (by omega)).bind fun _ cx₃ t₃ _ _ =>
    .pure (harr.mono (by omega))

theorem disciplined_emitDispatch (args : List (Arg P W)) (hbase : base ≤ cx.labels)
    (hwindow : window + 2 + args.length ≤ cx.tempTop) :
    Disciplined base cx (emitDispatch args window) fun _ _ => True := by
  unfold emitDispatch
  split
  case isTrue =>
    refine (disciplined_buildArgsArray args hbase).bind fun arr cx₁ t₁ _ _ => ?_
    exact disciplined_applyTo _ _ (by omega)
  case isFalse =>
    refine (disciplined_emitArgs args hbase hwindow).bind fun _ cx₁ t₁ _ _ => ?_
    exact disciplined_applyTo _ _ (by omega)

theorem spared_exprInto (e : Part P W) (ht : t ≤ cx.tempTop) (hforced : t ≤ forced) :
    Spared t cx (exprInto e.emit forced) fun _ _ => True := by
  unfold exprInto
  refine (e.spared ht).bind fun r cx₁ _ _ => ?_
  split
  case isTrue => exact .pure trivial
  case isFalse => exact .emit (spares_move _ (.inr hforced))

theorem spared_emitArgs (args : List (Arg P W)) (ht : t ≤ cx.tempTop) (hslot : t ≤ slot) :
    Spared t cx (emitArgs slot args) fun _ _ => True := by
  induction args generalizing slot cx with
  | nil => exact .pure trivial
  | cons arg args ih =>
    refine (spared_exprInto arg.value ht hslot).bind fun _ cx₁ t₁ _ => ?_
    exact ih (by omega) (by omega)

theorem spared_emitAppend {arr : Nat} (arg : Arg P W) (ht : t ≤ cx.tempTop) :
    Spared t cx (emitAppend arr arg) fun _ _ => True := by
  unfold emitAppend
  refine (arg.value.spared ht).bind fun src cx₁ t₁ _ => ?_
  split
  case isTrue =>
    exact (Spared.emit (spares_effect _ _)).bind fun _ _ _ _ => .emit (spares_effect _ _)
  case isFalse =>
    refine (spared_loadStrKey _ (by omega)).bind fun key cx₂ t₂ _ => ?_
    refine Spared.newTemp.bind fun len cx₃ _ hlen => ?_
    refine (Spared.emit (spares_applyTo _ _ (.inr (by omega)))).bind fun _ _ _ _ => ?_
    exact .emit (spares_effect _ _)

theorem spared_buildArgsArray (args : List (Arg P W)) (ht : t ≤ cx.tempTop) :
    Spared t cx (buildArgsArray args) fun _ _ => True := by
  have happends (arr : Nat) : ∀ {cx : FnCtx P}, t ≤ cx.tempTop →
      Spared t cx (args.forM (emitAppend arr)) fun _ _ => True := by
    induction args with
    | nil => exact fun _ => .pure trivial
    | cons arg args ih =>
      intro cx ht
      show Spared t cx (emitAppend arr arg >>= fun _ => args.forM (emitAppend arr)) _
      exact (spared_emitAppend arg ht).bind fun _ cx₁ t₁ _ => ih (by omega)
  unfold buildArgsArray
  refine Spared.newTemp.bind fun arr cx₁ t₁ harr => ?_
  refine (Spared.emit (spares_applyTo _ _ (.inr (by omega)))).bind fun _ cx₂ t₂ _ => ?_
  exact (happends arr (by omega)).bind fun _ _ _ _ => .pure trivial

theorem runFrom_emitWindow (M : Machine W) {argc : Nat}
    (h : emitWindow s argc cx = some (window, cx', code))
    (hrecv : ∀ r, s.recv = some r → r < cx.tempTop) (f : Frame W) :
    window = cx.tempTop ∧ cx' = cx.addTemps (2 + argc) ∧
      (emitWindow s argc).runFrom M cx f = some (cx.tempTop, cx.addTemps (2 + argc),
        (f.write cx.tempTop (f.regs s.cur)).write (cx.tempTop + 1)
          ((s.recv.map f.regs).getD .undefined)) := by
  have hwhole := h
  unfold emitWindow at h
  obtain ⟨w, cx₁, code₁, rest₁, hnew, hrest₁, rfl⟩ := bind_eq_some.mp h
  obtain ⟨_, cx₂, code₂, rest₂, hmove, hrest₂, rfl⟩ := bind_eq_some.mp hrest₁
  obtain ⟨_, cx₃, code₃, rest₃, hreceiver, hpure, rfl⟩ := bind_eq_some.mp hrest₂
  obtain ⟨rfl, -, -, rfl⟩ := newTemps_eq_some hnew
  obtain ⟨-, rfl⟩ := runFrom_newTemp_eq M hnew f
  cases hmove
  cases hpure
  cases hr : s.recv with
  | none =>
    rw [hr] at hreceiver
    cases hreceiver
    refine ⟨rfl, rfl, ?_⟩
    rw [Emit.runFrom, hwhole]
    rfl
  | some r =>
    rw [hr] at hreceiver
    cases hreceiver
    refine ⟨rfl, rfl, ?_⟩
    rw [Emit.runFrom, hwhole]
    have hne : r ≠ cx.tempTop := Nat.ne_of_lt (hrecv r hr)
    show some (_, _, (f.write cx.tempTop (f.regs s.cur)).write (cx.tempTop + 1)
      ((f.write cx.tempTop (f.regs s.cur)).regs r)) = _
    rw [write_regs_of_ne _ _ hne]
    rfl

/-- **What a link takes from registers is right exactly when it is ready.** -/
theorem operandsRight_iff (M : Machine W) (hp : Placed a)
    (h : kind.emit a.spot a.cx = some (s, cx', code)) : OperandsRight M kind a ↔ Ready kind a := by
  cases kind with
  | call args =>
    have h : emitCallLink args a.spot a.cx = some (s, cx', code) := h
    unfold emitCallLink at h
    split at h
    case isTrue => cases h
    case isFalse =>
      obtain ⟨window, cx₁, code₁, rest, hwindow, -, -⟩ := bind_eq_some.mp h
      obtain ⟨-, -, hrun⟩ := runFrom_emitWindow M hwindow (fun r hr => (hp.recv r hr).2) a.frame
      constructor
      · intro hright
        have hthis := (hright _ _ _ hrun).2
        rw [write_regs_self] at hthis
        exact hthis
      · intro hready w cx₂ f' hw
        rw [hrun] at hw
        cases hw
        refine ⟨?_, ?_⟩
        · rw [write_regs_of_ne _ _ (Nat.ne_of_lt (Nat.lt_succ_self _)), write_regs_self]
          exact hp.value
        · rw [write_regs_self]
          exact hready
  | _ =>
    show a.frame.regs a.spot.cur = a.lookup.getD a.value ↔ a.lookup.getD a.value = a.value
    rw [hp.value]
    exact eq_comm

theorem runFrom_exprInto (M : Machine W) (e : Part P W) (hforced : forced < cx.tempTop)
    (f : Frame W) :
    (exprInto e.emit forced).runFrom M cx f = (e.emit.runFrom M cx f).map fun r =>
      ((), r.2.1, r.2.2.write forced (r.2.2.regs r.1)) := by
  have hrest (r : Nat) (cx₁ : FnCtx P) (t₁ : cx.tempTop ≤ cx₁.tempTop) :
      Disciplined (W := W) cx₁.labels cx₁
        (if r = forced then pure () else emit (.move forced r)) fun _ _ => True := by
    split
    case isTrue => exact .pure trivial
    case isFalse => exact disciplined_move r (by omega)
  have hfresh := e.fresh cx.labels cx (Nat.le_refl _)
  rw [exprInto, runFrom_bind_eq M hfresh fun r cx₁ t₁ _ => hrest r cx₁ t₁]
  cases hrun : e.emit.runFrom M cx f with
  | none => rfl
  | some res =>
    have hr : cx.tempTop ≤ res.1 := (hfresh.of_runFrom hrun).2.2.1
    rw [Option.bind_some, if_neg (by omega), runFrom_move_eq]
    rfl

theorem runFrom_emitArgs (M : Machine W) (args : List (Arg P W))
    (hslot : slot + args.length ≤ cx.tempTop) (hlow : P.localsEnd ≤ slot) (f : Frame W) :
    (emitArgs slot args).runFrom M cx f =
        (evalArgs M slot args cx f).map (fun r => ((), r.2.1, r.2.2)) ∧
      ∀ vs cx₂ f₂, evalArgs M slot args cx f = some (vs, cx₂, f₂) →
        (List.range' slot args.length).map f₂.regs = vs := by
  induction args generalizing slot cx f with
  | nil =>
    refine ⟨rfl, fun vs cx₂ f₂ h => ?_⟩
    cases h
    rfl
  | cons arg args ih =>
    rw [List.length_cons] at hslot
    have hrest (cx₁ : FnCtx P) (t₁ : cx.tempTop ≤ cx₁.tempTop) :
        Disciplined cx₁.labels cx₁ (emitArgs (slot + 1) args) fun _ _ => True :=
      disciplined_emitArgs args (Nat.le_refl _) (by omega)
    have hfirst : Disciplined cx.labels cx (exprInto arg.value.emit slot) fun _ _ => True :=
      disciplined_exprInto arg.value (Nat.le_refl _) (by omega)
    have hwhole : (emitArgs slot (arg :: args)).runFrom M cx f =
        ((exprInto arg.value.emit slot).runFrom M cx f).bind fun r =>
          (emitArgs (slot + 1) args).runFrom M r.2.1 r.2.2 :=
      runFrom_bind_eq M hfirst (fun _ cx₁ t₁ _ => hrest cx₁ t₁) f
    rw [runFrom_exprInto M arg.value (by omega) f] at hwhole
    cases hrun : arg.value.emit.runFrom M cx f with
    | none =>
      rw [hrun] at hwhole
      have hnone : evalArgs M slot (arg :: args) cx f = none := by rw [evalArgs, hrun]
      rw [hwhole, hnone]
      exact ⟨rfl, fun vs cx₂ f₂ h => by cases h⟩
    | some res =>
      obtain ⟨r, cx₁, f₁⟩ := res
      have t₁ := ((arg.value.fresh cx.labels cx (Nat.le_refl _)).of_runFrom hrun).1
      rw [hrun, Option.map_some, Option.bind_some] at hwhole
      obtain ⟨hrun₂, hvalues⟩ := @ih (slot + 1) cx₁ (by omega) (by omega) (f₁.write slot (f₁.regs r))
      rw [hrun₂] at hwhole
      cases hargs : evalArgs M (slot + 1) args cx₁ (f₁.write slot (f₁.regs r)) with
      | none =>
        have hnone : evalArgs M slot (arg :: args) cx f = none := by
          simp only [evalArgs, hrun, hargs]
        rw [hwhole, hargs, hnone]
        exact ⟨rfl, fun vs cx₂ f₂ h => by cases h⟩
      | some res =>
        obtain ⟨vs, cx₂, f₂⟩ := res
        have hsome : evalArgs M slot (arg :: args) cx f = some (f₁.regs r :: vs, cx₂, f₂) := by
          simp only [evalArgs, hrun, hargs]
        rw [hwhole, hargs, hsome]
        refine ⟨rfl, fun vs' cx₂' f₂' h => ?_⟩
        cases h
        -- the slots behind this one are written later, this one is not
        have hkept : f₂.regs slot = f₁.regs r := by
          rw [hargs] at hrun₂
          have hspared : Spared (slot + 1) cx₁ (emitArgs (slot + 1) args) fun _ _ => True :=
            spared_emitArgs args (by omega) (Nat.le_refl _)
          rw [hspared.regs hrun₂ hlow (Nat.lt_succ_self _), write_regs_self]
        rw [List.length_cons, List.range'_succ, List.map_cons, hkept, hvalues vs cx₂ f₂ hargs]

def Frame.returned (f : Frame W) (window : Nat) (res : JsValue × W) : Frame W :=
  { f with world := res.2 }.write window res.1

theorem runFrom_emitDispatch (M : Machine W) (args : List (Arg P W))
    (hwindow : window + 2 + args.length ≤ cx.tempTop) (hlow : P.localsEnd ≤ window) (f : Frame W) :
    (emitDispatch args window).runFrom M cx f =
      if args.any Arg.spread then
        ((buildArgsArray args).runFrom M cx f).bind fun r =>
          (M.apply (.opcode .callApply) [f.regs window, f.regs (window + 1), r.2.2.regs r.1]
            r.2.2.world).map fun res => ((), r.2.1, r.2.2.returned window res)
      else
        (evalArgs M (window + 2) args cx f).bind fun r =>
          (M.apply .call (f.regs window :: f.regs (window + 1) :: r.1) r.2.2.world).map
            fun res => ((), r.2.1, r.2.2.returned window res) := by
  unfold emitDispatch
  split
  case isTrue =>
    have hspared : Spared (window + 2) cx (buildArgsArray args) fun _ _ => True :=
      spared_buildArgsArray args (by omega)
    rw [runFrom_bind_eq M (disciplined_buildArgsArray args (Nat.le_refl _))
      fun arr cx₁ t₁ _ => disciplined_applyTo _ _ (by omega)]
    cases hrun : (buildArgsArray args).runFrom M cx f with
    | none => rfl
    | some res =>
      have hcallee := hspared.regs hrun hlow (by omega)
      have hthis := hspared.regs hrun (r := window + 1) (by omega) (by omega)
      rw [Option.bind_some, Option.bind_some, runFrom_applyTo_eq, List.map_cons, List.map_cons,
        List.map_singleton, hcallee, hthis]
      rfl
  case isFalse =>
    have hspared : Spared (window + 2) cx (emitArgs (window + 2) args) fun _ _ => True :=
      spared_emitArgs args (by omega) (Nat.le_refl _)
    obtain ⟨hargs, hvalues⟩ := runFrom_emitArgs M args hwindow (by omega) f
    rw [runFrom_bind_eq M (disciplined_emitArgs args (Nat.le_refl _) hwindow)
      fun _ cx₁ t₁ _ => disciplined_applyTo _ _ (by omega)]
    cases heval : evalArgs M (window + 2) args cx f with
    | none => rw [hargs, heval]; rfl
    | some res =>
      obtain ⟨vs, cx₂, f₂⟩ := res
      have hrun : (emitArgs (window + 2) args).runFrom M cx f = some ((), cx₂, f₂) := by
        rw [hargs, heval]
        rfl
      have hcallee := hspared.regs hrun hlow (by omega)
      have hthis := hspared.regs hrun (r := window + 1) (by omega) (by omega)
      have hlist : (List.range' window (2 + args.length)).map f₂.regs =
          f.regs window :: f.regs (window + 1) :: vs := by
        rw [Nat.add_comm, List.range'_succ, List.range'_succ, List.map_cons, List.map_cons, hcallee,
          hthis, hvalues vs cx₂ f₂ heval]
      rw [hrun, Option.bind_some, Option.bind_some, runFrom_applyTo_eq, hlist]
      rfl

theorem linked_returned (f : Frame W) (res : JsValue × W) (hlow : P.localsEnd ≤ window)
    (hhigh : window < cx.tempTop) :
    Linked (⟨res.1, none, none, ⟨window, none⟩, cx, f.returned window res⟩ : At P W) :=
  ⟨⟨hlow, hhigh, write_regs_self _ _ _, fun _ hr => by cases hr⟩, rfl, rfl⟩

theorem call_run (M : Machine W) {args : List (Arg P W)} (hp : Placed a)
    (hready : Ready (.call args) a) (h : emitCallLink args a.spot a.cx = some (s, cx', code)) :
    (emitCallLink args a.spot).runFrom M a.cx a.frame =
        (stepCall M args a).map (fun a' => (a'.spot, a'.cx, a'.frame)) ∧
      ∀ a', stepCall M args a = some a' → Linked a' := by
  have habove := a.cx.above
  unfold emitCallLink at h ⊢
  split at h
  case isTrue => cases h
  case isFalse hargc =>
    rw [if_neg hargc]
    obtain ⟨window, cx₁, code₁, rest, hwindow, -, -⟩ := bind_eq_some.mp h
    obtain ⟨-, -, hrun⟩ := runFrom_emitWindow M hwindow (fun r hr => (hp.recv r hr).2) a.frame
    rw [hp.value, show (a.spot.recv.map a.frame.regs).getD .undefined = a.this from hready] at hrun
    have hroom : a.cx.tempTop + 2 + args.length ≤ (a.cx.addTemps (2 + args.length)).tempTop := by
      show _ ≤ a.cx.tempTop + (2 + args.length)
      omega
    have hdispatch := runFrom_emitDispatch M args hroom (Nat.le_of_lt habove)
      ((a.frame.write a.cx.tempTop a.value).write (a.cx.tempTop + 1) a.this)
    rw [write_regs_self, write_regs_of_ne _ _ (Nat.ne_of_lt (Nat.lt_succ_self _)),
      write_regs_self] at hdispatch
    rw [runFrom_bind_eq M (disciplined_emitWindow a.spot args.length) fun w cx₁ _ hw =>
        (disciplined_emitDispatch args (Nat.le_refl _) hw.2).bind fun _ _ _ _ _ => .pure trivial,
      hrun, Option.bind_some, runFrom_bind_eq M
        (disciplined_emitDispatch args (Nat.le_refl _) hroom) fun _ _ _ _ => .pure trivial,
      hdispatch]
    unfold stepCall
    split
    case isTrue =>
      cases hargs : (buildArgsArray args).runFrom M (a.cx.addTemps (2 + args.length))
          ((a.frame.write a.cx.tempTop a.value).write (a.cx.tempTop + 1) a.this) with
      | none =>
        simp only [hargs]
        exact ⟨rfl, fun a' ha' => by cases ha'⟩
      | some res =>
        obtain ⟨arr, cx₂, f₂⟩ := res
        have t₂ := ((disciplined_buildArgsArray args (Nat.le_refl _)).of_runFrom hargs).1
        simp only [hargs, Option.bind_some, Option.map_map]
        refine ⟨?_, fun a' ha' => ?_⟩
        · cases M.apply (.opcode .callApply) [a.value, a.this, f₂.regs arr] f₂.world with
          | none => rfl
          | some res => rfl
        · obtain ⟨res, -, rfl⟩ := Option.map_eq_some_iff.mp ha'
          exact linked_returned f₂ res (Nat.le_of_lt habove) (by omega)
    case isFalse =>
      cases hargs : evalArgs M (a.cx.tempTop + 2) args (a.cx.addTemps (2 + args.length))
          ((a.frame.write a.cx.tempTop a.value).write (a.cx.tempTop + 1) a.this) with
      | none =>
        simp only [hargs]
        exact ⟨rfl, fun a' ha' => by cases ha'⟩
      | some res =>
        obtain ⟨vs, cx₂, f₂⟩ := res
        have hargsRun : (emitArgs (a.cx.tempTop + 2) args).runFrom M
            (a.cx.addTemps (2 + args.length))
            ((a.frame.write a.cx.tempTop a.value).write (a.cx.tempTop + 1) a.this) =
              some ((), cx₂, f₂) := by
          rw [(runFrom_emitArgs M args hroom (by omega) _).1, hargs]
          rfl
        have t₂ := ((disciplined_emitArgs args (Nat.le_refl _) hroom).of_runFrom hargsRun).1
        simp only [hargs, Option.bind_some, Option.map_map]
        refine ⟨?_, fun a' ha' => ?_⟩
        · cases M.apply .call (a.value :: a.this :: vs) f₂.world with
          | none => rfl
          | some res => rfl
        · obtain ⟨res, -, rfl⟩ := Option.map_eq_some_iff.mp ha'
          exact linked_returned f₂ res (Nat.le_of_lt habove) (by omega)

/-- **A link behind its guard does what the evaluation does.** -/
theorem step_run (M : Machine W) (hp : Placed a) (hready : Ready kind a)
    (h : kind.emit a.spot a.cx = some (s, cx', code)) :
    (kind.emit a.spot).runFrom M a.cx a.frame =
        (kind.step M a).map (fun a' => (a'.spot, a'.cx, a'.frame)) ∧
      ∀ a', kind.step M a = some a' → Linked a' ∧ a'.spot = s ∧ a'.cx = cx' := by
  have hrun : (kind.emit a.spot).runFrom M a.cx a.frame =
      (kind.step M a).map (fun a' => (a'.spot, a'.cx, a'.frame)) ∧
        ∀ a', kind.step M a = some a' → Linked a' := by
    cases kind with
    | member name => exact member_run M (Part.str name) hp hready h
    | computed key => exact member_run M key hp hready h
    | privateField name => exact member_run M (Part.privateName name) hp hready h
    | call args => exact call_run M hp hready h
  refine ⟨hrun.1, fun a' ha' => ⟨hrun.2 a' ha', ?_⟩⟩
  have hcompiled := hrun.1
  rw [ha', Option.map_some] at hcompiled
  obtain ⟨code', hcode'⟩ := exists_of_runFrom hcompiled
  rw [h] at hcode'
  cases hcode'
  exact ⟨rfl, rfl⟩

/-! ## §5 The links -/

theorem disciplined_kind (kind : LinkKind P W) (s : Spot) (hbase : base ≤ cx.labels) :
    Disciplined base cx (kind.emit s) fun _ _ => True := by
  have hmember (key : Part P W) : Disciplined base cx (emitMember key.emit s) fun _ _ => True := by
    unfold emitMember
    refine (key.fresh base cx hbase).bind fun k cx₁ _ _ _ => ?_
    refine disciplined_newTemp.bind fun nxt cx₂ _ _ hnxt => ?_
    exact (disciplined_applyTo _ _ hnxt.2).bind fun _ _ _ _ _ => .pure trivial
  cases kind with
  | member name => exact hmember (Part.str name)
  | computed key => exact hmember key
  | privateField name => exact hmember (Part.privateName name)
  | call args =>
    show Disciplined base cx (emitCallLink args s) _
    unfold emitCallLink
    split
    case isTrue => exact .err
    case isFalse =>
      refine (disciplined_emitWindow s args.length).bind fun window cx₁ _ l₁ hw => ?_
      exact (disciplined_emitDispatch args (by omega) hw.2).bind fun _ _ _ _ _ => .pure trivial

/-- Labels are handed out upwards, and the code binds new ones only. -/
structure BindsNew (cx cx' : FnCtx P) (code : List (Item W)) : Prop where
  labels : cx.labels ≤ cx'.labels
  binds : ∀ l, Item.bind l ∈ code → cx.labels ≤ l

theorem BindsNew.append {code₁ code₂ : List (Item W)} (h₁ : BindsNew cx cx₁ code₁)
    (h₂ : BindsNew cx₁ cx' code₂) :
    BindsNew cx cx' (code₁ ++ code₂) where
  labels := Nat.le_trans h₁.labels h₂.labels
  binds l hl := by
    rcases List.mem_append.mp hl with hmem | hmem
    · exact h₁.binds l hmem
    · exact Nat.le_trans h₁.labels (h₂.binds l hmem)

theorem bindsNew_guard {isOptional : Bool}
    (h : emitGuard isOptional cur dst exit cx = some ((), cx', code)) :
    BindsNew cx cx' code := by
  cases isOptional with
  | false =>
    cases h
    exact ⟨Nat.le_refl _, by simp⟩
  | true =>
    obtain ⟨rfl, rfl⟩ := nullishExit_eq_some h
    exact ⟨Nat.le_succ _, by simp⟩

theorem bindsNew_kind {s' : Spot} (h : kind.emit s cx = some (s', cx', code)) :
    BindsNew cx cx' code := by
  have hemitted := (disciplined_kind kind s (Nat.le_refl cx.labels) _ _ _ h).1
  exact ⟨hemitted.labels, hemitted.binds⟩

theorem bindsNew_links (h : emitLinks dst exit links s cx = some (r, cx', code)) :
    BindsNew cx cx' code := by
  induction links generalizing s cx code with
  | nil =>
    cases h
    exact ⟨Nat.le_refl _, by simp⟩
  | cons link links ih =>
    obtain ⟨_, cx₁, guard, rest₁, hguard, hrest₁, rfl⟩ := bind_eq_some.mp h
    obtain ⟨s', cx₂, step, rest₂, hstep, hrest₂, rfl⟩ := bind_eq_some.mp hrest₁
    exact (bindsNew_guard hguard).append ((bindsNew_kind hstep).append (ih hrest₂))

/-- A run that reaches neither the end of the code nor the chain's exit. -/
def Astray (exit : Nat) (mode : Mode W) : Prop :=
  mode = .left ∨ ∃ l g, l ≠ exit ∧ mode = .seeking l g

theorem astray_of_none {R : α → FnCtx P → Prop} {a : α} {rest : List (Item W)}
    (h : m cx = some (a, cx', code)) (hm : Disciplined cx.labels cx m R)
    (hrest : ∀ l, Item.bind l ∈ rest → cx'.labels ≤ l) (hexit : exit < cx.labels)
    (hnone : m.runFrom M cx f = none) : Astray exit (exec M rest (exec M code (.running f))) := by
  have hemitted := (hm a cx' code h).1
  cases hmode : exec M code (.running f) with
  | running g =>
    rw [runFrom_of_running h hmode] at hnone
    cases hnone
  | left => exact .inl (exec_left M rest)
  | seeking l g =>
    rcases target_of_seeking M hmode with ⟨g', hg'⟩ | ⟨op, cond, hmem⟩
    · cases hg'
    · obtain ⟨hlow, hhigh⟩ := hemitted.targets op cond l hmem
      have hskip : Item.bind l ∉ rest := fun hl => Nat.not_le_of_lt hhigh (hrest l hl)
      exact .inr ⟨l, g, by omega, exec_seeking M hskip g⟩

theorem enter_cx {isOptional : Bool}
    (h : emitGuard isOptional a.spot.cur dst exit a.cx = some ((), cx', code)) :
    cx' = (a.enter isOptional).cx := by
  cases isOptional with
  | false =>
    cases h
    rfl
  | true => exact (nullishExit_eq_some h).1

theorem enter_spot (isOptional : Bool) (a : At P W) : (a.enter isOptional).spot = a.spot := by
  cases isOptional <;> rfl

theorem guard_run (M : ChainMachine W) {link : Link P W} (hp : Placed a)
    (hexit : exit < a.cx.labels) (hcalm : link.isOptional = true → Calm M a.value a.frame.world)
    (h : emitGuard link.isOptional a.spot.cur dst exit a.cx = some ((), cx', code)) :
    exec M.toMachine code (.running a.frame) =
      if link.stops a then
        .seeking exit ((compared a.cx a.frame (.bool true) a.frame.world).write dst .undefined)
      else .running (a.enter link.isOptional).frame := by
  unfold Link.stops
  cases hopt : link.isOptional with
  | false =>
    rw [hopt] at h
    cases h
    rfl
  | true =>
    rw [hopt] at h
    obtain ⟨p, hprim, hnull⟩ := hcalm hopt
    have hexec := exec_nullishExit M h hp.high hexit a.frame
    rw [hp.value, hprim] at hexec
    simp only [hnull] at hexec
    rw [hexec, Bool.true_and]
    rfl

def FirstReady (links : List (Link P W)) (a : At P W) : Prop :=
  match links with
  | [] => True
  | link :: _ => link.stops a = false → Ready link.kind a

theorem Linked.firstReady (h : Linked a) (links : List (Link P W)) :
    FirstReady links a := by
  cases links with
  | nil => trivial
  | cons link links => exact fun _ => h.ready link.kind

/-- Every `?.` evaluation comes to compares a calm value. -/
def AllCalm (M : ChainMachine W) (links : List (Link P W)) (a : At P W) : Prop :=
  Along M.toMachine (fun link a => link.isOptional = true → Calm M a.value a.frame.world) links a

def Ends (dst exit r t : Nat) (fin : Option (Finish W)) (mode : Mode W) : Prop :=
  match fin with
  | none => Astray exit mode
  | some ⟨true, v, f⟩ => ∃ g, mode = .seeking exit g ∧ g.world = f.world ∧ g.regs dst = v ∧
      ∀ q, q < t → q ≠ dst → g.regs q = f.regs q
  | some ⟨false, v, f⟩ => mode = .running f ∧ f.regs r = v

/-- **The code of the links does what their evaluation does.** -/
theorem exec_links (M : ChainMachine W) (hp : Placed a) (ht : t ≤ a.cx.tempTop)
    (hexit : exit < a.cx.labels) (hfirst : FirstReady links a) (hcalm : AllCalm M links a)
    (h : emitLinks dst exit links a.spot a.cx = some (r, cx', code)) :
    Ends dst exit r t (evalLinks M.toMachine links a) (exec M.toMachine code (.running a.frame)) := by
  induction links generalizing a code with
  | nil =>
    cases h
    exact ⟨rfl, hp.value⟩
  | cons link links ih =>
    obtain ⟨_, cx₁, guard, rest₁, hguard, hrest₁, rfl⟩ := bind_eq_some.mp h
    obtain ⟨s', cx₂, step, rest, hstep, hrest, rfl⟩ := bind_eq_some.mp hrest₁
    have hrun := guard_run M hp hexit hcalm.1 hguard
    obtain rfl := enter_cx hguard
    have hnewGuard := bindsNew_guard hguard
    have hnewRest := (bindsNew_kind hstep).append (bindsNew_links hrest)
    rw [exec_append, hrun, evalLinks]
    cases hstops : link.stops a with
    | true =>
      -- the exit lies behind all the links
      have hskip : Item.bind exit ∉ step ++ rest := fun hmem => by
        have hle := hnewRest.binds _ hmem
        have := hnewGuard.labels
        omega
      rw [if_pos rfl, if_pos rfl, exec_seeking M.toMachine hskip]
      refine ⟨_, rfl, rfl, write_regs_self _ _ _, fun q hq hne => ?_⟩
      rw [write_regs_of_ne _ _ hne]
      show (Frame.write _ _ _).regs q = _
      rw [write_regs_of_ne _ _ (by omega)]
      exact write_regs_of_ne _ _ (by omega)
    | false =>
      have henter := enter_placed hp link.isOptional
      have hready := (enter_ready hp link.isOptional link.kind).mpr (hfirst hstops)
      have htop : a.cx.tempTop ≤ (a.enter link.isOptional).cx.tempTop := by
        cases link.isOptional with
        | false => exact Nat.le_refl _
        | true => exact Nat.le_add_right _ _
      rw [← enter_spot link.isOptional a] at hstep
      obtain ⟨hkind, hnext⟩ := step_run M.toMachine henter hready hstep
      simp only [Bool.false_eq_true, if_false]
      rw [exec_append]
      cases heval : link.kind.step M.toMachine (a.enter link.isOptional) with
      | none =>
        rw [heval, Option.map_none] at hkind
        have hlabels := hnewGuard.labels
        exact astray_of_none hstep (disciplined_kind link.kind _ (Nat.le_refl _))
          (bindsNew_links hrest).binds (by omega) hkind
      | some a' =>
        obtain ⟨hlinked, rfl, rfl⟩ := hnext a' heval
        rw [heval, Option.map_some] at hkind
        obtain ⟨step', hstep', hstepRun⟩ := runFrom_eq_some.mp hkind
        rw [hstep] at hstep'
        cases hstep'
        rw [hstepRun]
        have htops := (disciplined_kind link.kind _ (Nat.le_refl _)).of_runFrom hkind
        have hlabels := hnewGuard.labels
        exact ih hlinked.toPlaced (by omega) (by omega) (hlinked.firstReady links)
          (hcalm.2 hstops a' heval) hrest

/-- **The code of every link evaluation comes to is right exactly when the first one is ready and
all are calm.** -/
theorem along_iff (M : ChainMachine W) (hp : Placed a) (hexit : exit < a.cx.labels)
    (h : emitLinks dst exit links a.spot a.cx = some (r, cx', code)) :
    Along M.toMachine (LinkRight M.toMachine) links a ↔
      FirstReady links a ∧ AllCalm M links a := by
  induction links generalizing a code with
  | nil => exact ⟨fun _ => ⟨trivial, trivial⟩, fun _ => trivial⟩
  | cons link links ih =>
    obtain ⟨_, cx₁, guard, rest₁, hguard, hrest₁, -⟩ := bind_eq_some.mp h
    obtain ⟨s', cx₂, step, rest, hstep, hrest, -⟩ := bind_eq_some.mp hrest₁
    have hlabels := (bindsNew_guard hguard).labels
    obtain rfl := enter_cx hguard
    rw [← enter_spot link.isOptional a] at hstep
    have henter := enter_placed hp link.isOptional
    have hguards : (link.isOptional = true → GuardRight M.toMachine a) ↔
        (link.isOptional = true → Calm M a.value a.frame.world) := by
      refine imp_congr_right fun hopt => ?_
      rw [hopt] at hguard
      exact guardRight_iff M hp hexit hguard
    have hoperands : OperandsRight M.toMachine link.kind (a.enter link.isOptional) ↔
        Ready link.kind a :=
      (operandsRight_iff M.toMachine henter hstep).trans (enter_ready hp _ _)
    have hnext (hready : Ready link.kind a) :
        (∀ a', link.kind.step M.toMachine (a.enter link.isOptional) = some a' →
            Along M.toMachine (LinkRight M.toMachine) links a') ↔
          ∀ a', link.kind.step M.toMachine (a.enter link.isOptional) = some a' →
            AllCalm M links a' := by
      obtain ⟨hkind, hlinked⟩ :=
        step_run M.toMachine henter ((enter_ready hp _ _).mpr hready) hstep
      refine forall_congr' fun a' => imp_congr_right fun heval => ?_
      obtain ⟨hlink, rfl, rfl⟩ := hlinked a' heval
      have hmore := (bindsNew_kind hstep).labels
      rw [ih hlink.toPlaced (by omega) hrest]
      exact and_iff_right (hlink.firstReady links)
    constructor
    · rintro ⟨⟨hright, hops⟩, hrights⟩
      refine ⟨fun hstops => hoperands.mp (hops hstops), hguards.mp hright, fun hstops => ?_⟩
      exact (hnext (hoperands.mp (hops hstops))).mp (hrights hstops)
    · rintro ⟨hready, hcalm, hcalms⟩
      refine ⟨⟨hguards.mpr hcalm, fun hstops => hoperands.mpr (hready hstops)⟩, fun hstops => ?_⟩
      exact (hnext (hready hstops)).mpr (hcalms hstops)

/-! ## §6 The chain -/

theorem chainExpr_eq_some {head : Head P W} (h : chainExpr head links cx = some (dst, cx', code)) :
    dst = cx.tempTop ∧ ∃ regs cx₁ headCode cur cx₂ linksCode,
      head.emit (chainStart cx) = some (regs, cx₁, headCode) ∧
      emitLinks cx.tempTop cx.labels links ⟨regs.value, none⟩ cx₁ = some (cur, cx₂, linksCode) ∧
      code = headCode ++ (linksCode ++ [.move cx.tempTop cur, .bind cx.labels]) := by
  unfold chainExpr at h
  obtain ⟨exit, cx₁, code₁, rest₁, hlabel, hrest₁, rfl⟩ := bind_eq_some.mp h
  obtain ⟨t, cx₂, code₂, rest₂, hnew, hrest₂, rfl⟩ := bind_eq_some.mp hrest₁
  obtain ⟨regs, cx₃, headCode, rest₃, hhead, hrest₃, rfl⟩ := bind_eq_some.mp hrest₂
  obtain ⟨cur, cx₄, linksCode, rest₄, hlinks, hrest₄, rfl⟩ := bind_eq_some.mp hrest₃
  obtain ⟨_, cx₅, code₅, rest₅, hmove, hrest₅, rfl⟩ := bind_eq_some.mp hrest₄
  obtain ⟨_, cx₆, code₆, rest₆, hbind, hpure, rfl⟩ := bind_eq_some.mp hrest₅
  cases hlabel
  obtain ⟨rfl, htop, hlabels, rfl⟩ := newTemps_eq_some hnew
  have hstart : cx₂ = chainStart cx := by
    cases cx₂
    cases htop
    cases hlabels
    rfl
  cases hstart
  cases hmove
  cases hbind
  cases hpure
  exact ⟨rfl, regs, cx₃, headCode, cur, _, linksCode, hhead, hlinks, rfl⟩

theorem headAt_placed {head : Head P W} {regs : HeadRegs} (hfresh : regs.Fresh cx cx₁)
    (h : headAt M head regs cx₁ f = some a) (hframe : a.frame = f) :
    Placed a ∧ a.spot = ⟨regs.value, none⟩ ∧ a.cx = cx₁ := by
  have habove := cx.above
  obtain ⟨hlow, hhigh⟩ := hfresh.1
  unfold headAt at h
  split at h
  case isTrue =>
    obtain ⟨w, -, rfl⟩ := Option.map_eq_some_iff.mp h
    exact ⟨⟨by show P.localsEnd ≤ regs.value; omega, hhigh, rfl, fun r hr => by cases hr⟩, rfl, rfl⟩
  case isFalse =>
    cases h
    exact ⟨⟨by show P.localsEnd ≤ regs.value; omega, hhigh, rfl, fun r hr => by cases hr⟩, rfl, rfl⟩

theorem firstReady_iff (h : a.spot.recv = none) :
    FirstReady links a ↔ FirstPlain links a := by
  cases links with
  | nil => exact Iff.rfl
  | cons link links =>
    refine imp_congr_right fun _ => ?_
    cases link.kind with
    | call args =>
      show (a.spot.recv.map a.frame.regs).getD .undefined = a.this ↔ a.this = .undefined
      rw [h]
      exact eq_comm
    | _ => exact Iff.rfl

theorem completes_tail {fin : Option (Finish W)} (ht : t ≤ dst)
    (h : Ends dst exit cur t fin (exec M code (.running f))) :
    (fin = none → completes M (code ++ [.move dst cur, .bind exit]) f = none) ∧
      ∀ e, fin = some e → ∃ f', completes M (code ++ [.move dst cur, .bind exit]) f = some f' ∧
        f'.world = e.frame.world ∧ f'.regs dst = e.value ∧
        ∀ q, q < t → f'.regs q = e.frame.regs q := by
  simp only [completes, exec_append]
  constructor
  · rintro rfl
    rcases h with hleft | ⟨l, g, hne, hseeking⟩
    · rw [hleft]
      rfl
    · rw [hseeking]
      have hskip : Item.bind l ∉ ([.move dst cur, .bind exit] : List (Item W)) := by
        simp only [List.mem_cons, List.not_mem_nil, or_false, reduceCtorEq, false_or,
          Item.bind.injEq]
        exact hne
      rw [exec_seeking M hskip]
  · rintro ⟨short, v, g⟩ rfl
    cases short with
    | true =>
      obtain ⟨g', hg', hworld, hdst, hregs⟩ := h
      rw [hg']
      refine ⟨g', ?_, hworld, hdst, fun q hq => hregs q hq (by omega)⟩
      simp only [exec, List.foldl_cons, List.foldl_nil, Item.exec, if_true]
    | false =>
      obtain ⟨hg, hcur⟩ := h
      rw [hg]
      refine ⟨g.write dst (g.regs cur), rfl, rfl, ?_, fun q hq => ?_⟩
      · rw [write_regs_self]
        exact hcur
      · exact write_regs_of_ne g _ (by omega)

/-- **An optional chain.** The code of every compiled chain does what its evaluation does, in
every run, exactly when the head is plain and each `?.` evaluation comes to compares a calm value. -/
theorem chainHeld_iff (M : ChainMachine W) (head : Head P W) (links : List (Link P W))
    (cx : FnCtx P) (f : Frame W) :
    ChainHeld M.toMachine head links cx f ↔ ChainCalm M head links cx f := by
  constructor
  · intro hheld dst cx' code hchain regs cx₁ f₁ hhead
    obtain ⟨a, hat, hframe, halong⟩ := (hheld dst cx' code hchain).1 regs cx₁ f₁ hhead
    obtain ⟨-, regs', cx₁', headCode, cur, cx₂, linksCode, hheadCode, hlinks, -⟩ :=
      chainExpr_eq_some hchain
    have hregs := (head.fresh _ _ (Nat.le_refl _)).of_runFrom hhead
    obtain ⟨code', hcode'⟩ := exists_of_runFrom hhead
    rw [hheadCode] at hcode'
    cases hcode'
    obtain ⟨hp, hspot, rfl⟩ := headAt_placed hregs.2.2 hat hframe
    rw [← hspot] at hlinks
    have hexit : cx.labels < a.cx.labels := hregs.2.1
    obtain ⟨hready, hcalm⟩ := (along_iff M hp hexit hlinks).mp halong
    exact ⟨a, hat, hframe, (firstReady_iff (by rw [hspot])).mp hready, hcalm⟩
  · intro hcalm dst cx' code hchain
    obtain ⟨rfl, regs, cx₁, headCode, cur, cx₂, linksCode, hheadCode, hlinks, rfl⟩ :=
      chainExpr_eq_some hchain
    have hfresh := head.fresh _ _ (Nat.le_refl (chainStart cx).labels)
    have hnew := bindsNew_links hlinks
    cases hrun : head.emit.runFrom M.toMachine (chainStart cx) f with
    | none =>
      have hastray : Ends cx.tempTop cx.labels cur cx.tempTop none
          (exec M.toMachine (headCode ++ linksCode) (.running f)) := by
        rw [exec_append]
        exact astray_of_none hheadCode hfresh hnew.binds (Nat.lt_succ_self _) hrun
      have heval : evalChain M.toMachine head links cx f = none := by rw [evalChain, hrun]
      have htail := completes_tail (Nat.le_refl _) hastray
      rw [List.append_assoc] at htail
      rw [heval]
      exact ⟨(fun _ _ _ h => by cases h), htail⟩
    | some res =>
      obtain ⟨regs', cx₁', f₁⟩ := res
      have hregs := hfresh.of_runFrom hrun
      obtain ⟨headCode', hheadCode', hheadRun⟩ := runFrom_eq_some.mp hrun
      rw [hheadCode] at hheadCode'
      cases hheadCode'
      obtain ⟨a, hat, rfl, hplain, hcalms⟩ := hcalm _ _ _ hchain regs cx₁ f₁ hrun
      obtain ⟨hp, hspot, rfl⟩ := headAt_placed hregs.2.2 hat rfl
      rw [← hspot] at hlinks
      have hexit : cx.labels < a.cx.labels := hregs.2.1
      have htop : cx.tempTop ≤ a.cx.tempTop := Nat.le_of_lt hregs.1
      have hready := (firstReady_iff (by rw [hspot])).mpr hplain
      have halong := (along_iff M hp hexit hlinks).mpr ⟨hready, hcalms⟩
      have hends := exec_links M hp htop hexit hready hcalms hlinks
      have heval : evalChain M.toMachine head links cx f = evalLinks M.toMachine links a := by
        rw [evalChain, hrun]
        simp only [hat, Option.bind_some]
      have htail := completes_tail (Nat.le_refl _) hends
      rw [completes_append hheadRun, heval]
      refine ⟨fun regs' cx' f' h => ?_, htail⟩
      cases h
      exact ⟨a, hat, rfl, halong⟩

/-! ## §7 An object that converts to null -/

/-- The one object of a program is `{ valueOf() { return null; }, y: 1 }`, and the only function its
method. -/
def nullCoercions : Coercions Unit where
  stringToNumber _ _ := 0
  toJsString w _ := some (0, w)
  concat w _ _ := (0, w)
  getProperty w _ name := some (if name = "valueOf" then .object 1 else .undefined, w)
  callMethod w _ _ := some (.null, w)

/-- A machine with that object: every property it is asked for otherwise is 1. -/
def nullMachine : ChainMachine Unit where
  envRead _ _ _ := .undefined
  envWrite w _ _ _ := w
  toBoolean _ v := v == .bool true
  apply op args w :=
    match op, args with
    | .opcode .eq, [v, .null] =>
      (nullCoercions.toPrimitiveWithHint .default v w).map fun r => (.bool (isNullish r.1), r.2)
    | .opcode .getProperty, _ => some (.smi 1, w)
    | _, _ => some (.undefined, w)
  toCoercions := nullCoercions
  apply_eq_null _ _ := rfl
  toBoolean_bool _ b := by cases b <;> rfl

/-- The variable `x`. -/
def variableHead : Head localPlans Unit := .ofExpr (.ident ⟨"x", some 0⟩) trivial

/-- `x` is an object. -/
def objectFrame : Frame Unit := ⟨fun r => if r = 1 then .object 0 else .undefined, ()⟩

/-- **`x?.y` is undefined for an object that converts to null**, and the object is not looked up. -/
theorem not_chainHeld : ¬ ∀ (M : ChainMachine Unit) (head : Head localPlans Unit)
    (links : List (Link localPlans Unit)) (cx : FnCtx localPlans) (f : Frame Unit),
      ChainHeld M.toMachine head links cx f := by
  intro h
  obtain ⟨f', hf', -, hvalue, -⟩ := (h nullMachine variableHead [⟨true, .member "y"⟩]
    ⟨3, 0, by decide⟩ objectFrame _ _ _ rfl).2.2 _ rfl
  cases hf'
  cases hvalue

end V12.Expression
