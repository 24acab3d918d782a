/-
V12.Bccompiler.SparedTemps — the code of an expression leaves the temporaries in use as they
are.

A destination is a temporary that the expression has allocated, or the register of a local
variable, which lies below all temporaries; the code of a form that has no arm of its own is asked
for that (`Expr.Spares`). So every expression may stand inside an optional chain, as its head, a
key or an argument (`Part.ofExpr`, `Head.ofExpr`).
-/
import V12.Bccompiler.Chain

namespace V12.Expression

open V12.Heap (JsValue)
open V12.Bytecode (BranchOp Opcode)

variable {P : Plans} {W α β : Type}
variable {lo hi dst t r done : Nat} {M : Machine W} {m : Emit P W α} {cx cx' cx₁ : FnCtx P}
  {f : Frame W}

/-! ## §1 Code that leaves temporaries alone -/

/-- What the code of `m` leaves alone, with what holds of its result. -/
def Spared (t : Nat) (cx : FnCtx P) (m : Emit P W α) (R : α → FnCtx P → Prop) : Prop :=
  ∀ a cx' code, m cx = some (a, cx', code) →
    (∀ item ∈ code, item.Spares P.localsEnd t) ∧ cx.tempTop ≤ cx'.tempTop ∧ R a cx'

theorem Item.Spares.mono {hi' : Nat} {item : Item W} (h : item.Spares lo hi) (hle : hi' ≤ hi) :
    item.Spares lo hi' :=
  fun M f f' hf' r hlo hhi => h M f f' hf' r hlo (Nat.lt_of_lt_of_le hhi hle)

namespace Spared

variable {t : Nat} {cx : FnCtx P}
variable {R : α → FnCtx P → Prop}

theorem pure {a : α} (h : R a cx) :
    Spared (W := W) t cx (pure a) R := by
  intro b cx' code hsome
  cases hsome
  exact ⟨by simp, Nat.le_refl _, h⟩

theorem bind {m : Emit P W α} {k : α → Emit P W β} {Q : β → FnCtx P → Prop} (hm : Spared t cx m R)
    (hk : ∀ a cx₁, cx.tempTop ≤ cx₁.tempTop → R a cx₁ → Spared t cx₁ (k a) Q) :
    Spared t cx (m >>= k) Q := by
  intro b cx' code hsome
  obtain ⟨a, cx₁, code₁, code₂, hm₁, hk₁, rfl⟩ := bind_eq_some.mp hsome
  obtain ⟨hspares, htop, hR⟩ := hm a cx₁ code₁ hm₁
  obtain ⟨hspares', htop', hQ⟩ := hk a cx₁ htop hR b cx' code₂ hk₁
  refine ⟨fun item hitem => ?_, by omega, hQ⟩
  rcases List.mem_append.mp hitem with hmem | hmem
  · exact hspares item hmem
  · exact hspares' item hmem

theorem err : Spared (W := W) t cx Emit.err R :=
  fun _ _ _ hsome => by cases hsome

theorem emit {item : Item W} (h : item.Spares P.localsEnd t) :
    Spared t cx (emit item) fun _ _ => True := by
  intro a cx' code hsome
  cases hsome
  exact ⟨fun i hi => by rw [List.mem_singleton.mp hi]; exact h, Nat.le_refl _, trivial⟩

theorem newTemps (n : Nat) : Spared (W := W) t cx (newTemps n) fun r cx' =>
    r = cx.tempTop ∧ cx'.tempTop = cx.tempTop + n := by
  intro r cx' code hsome
  obtain ⟨rfl, htop, -, rfl⟩ := newTemps_eq_some hsome
  exact ⟨by simp, by omega, rfl, htop⟩

theorem newTemp : Spared (W := W) t cx newTemp fun r cx' =>
    r = cx.tempTop ∧ cx'.tempTop = cx.tempTop + 1 := newTemps 1

end Spared

theorem spares_of_write {item : Item W} (hdst : dst < lo ∨ hi ≤ dst)
    (hitem : ∀ (M : Machine W) (f f' : Frame W), (item.run M f).frame? = some f' →
      ∀ r, r ≠ dst → f'.regs r = f.regs r) : item.Spares lo hi :=
  fun M f f' hf' r hlo hhi => hitem M f f' hf' r (by omega)

theorem spares_move (src : Nat) (hdst : dst < lo ∨ hi ≤ dst) :
    (Item.move dst src : Item W).Spares lo hi :=
  spares_of_write hdst fun M f f' hf' r hr => by
    cases hf'
    exact write_regs_of_ne f _ hr

theorem spares_getEnv (depth slot : Nat) (hdst : dst < lo ∨ hi ≤ dst) :
    (Item.getEnv dst depth slot : Item W).Spares lo hi :=
  spares_of_write hdst fun M f f' hf' r hr => by
    cases hf'
    exact write_regs_of_ne f _ hr

theorem spares_applyTo (op : Op) (args : List Nat) (hdst : dst < lo ∨ hi ≤ dst) :
    (Item.apply op (some dst) args : Item W).Spares lo hi :=
  spares_of_write hdst fun M f f' hf' r hr => by
    simp only [Item.run] at hf'
    split at hf'
    case h_1 => cases hf'
    case h_2 v w _ =>
      cases hf'
      exact write_regs_of_ne _ v hr

theorem spares_effect (op : Op) (args : List Nat) :
    (Item.apply op none args : Item W).Spares lo hi := by
  intro M f f' hf' r _ _
  simp only [Item.run] at hf'
  split at hf'
  case h_1 => cases hf'
  case h_2 => cases hf'; rfl

theorem Spared.regs {R : α → FnCtx P → Prop} (hm : Spared t cx m R) {a : α} {g : Frame W}
    (h : m.runFrom M cx f = some (a, cx', g)) (hlow : P.localsEnd ≤ r) (hhigh : r < t) :
    g.regs r = f.regs r := by
  obtain ⟨code, hcode, hrun⟩ := runFrom_eq_some.mp h
  have hspares := (hm a cx' code hcode).1
  have hframe : (exec M code (.running f)).frame? = some g := by rw [hrun]; rfl
  exact exec_unchanged M (fun r => P.localsEnd ≤ r ∧ r < t)
    (fun item hitem g g' hg r hr => hspares item hitem M g g' hg r hr.1 hr.2)
    (show (Mode.running f).frame? = some f from rfl) hframe r ⟨hlow, hhigh⟩

theorem Spared.sparesTemps {R : FnCtx P → α → FnCtx P → Prop}
    (h : ∀ cx : FnCtx P, Spared cx.tempTop cx m (R cx)) : SparesTemps m :=
  fun cx a cx' code hsome => (h cx a cx' code hsome).1

theorem spared_loadStrKey (text : String) (ht : t ≤ cx.tempTop) :
    Spared (W := W) t cx (loadStrKey text) fun r cx' => Fresh cx r cx' := by
  unfold loadStrKey
  refine Spared.newTemp.bind fun key cx₁ t₁ hkey => ?_
  obtain ⟨rfl, htop⟩ := hkey
  refine (Spared.emit (spares_applyTo _ _ (.inr ht))).bind fun _ cx₂ t₂ _ => .pure ?_
  exact ⟨Nat.le_refl _, by omega⟩

theorem spared_loadPrivateName (name : String) (ht : t ≤ cx.tempTop) :
    Spared (W := W) t cx (loadPrivateName name) fun r cx' => Fresh cx r cx' := by
  unfold loadPrivateName
  split
  case h_1 => exact .err
  case h_2 depth slot _ =>
    refine Spared.newTemp.bind fun dst cx₁ t₁ hdst => ?_
    obtain ⟨rfl, htop⟩ := hdst
    refine (Spared.emit (spares_getEnv _ _ (.inr ht))).bind fun _ cx₂ t₂ _ => .pure ?_
    exact ⟨Nat.le_refl _, by omega⟩

theorem Spared.imp {R Q : α → FnCtx P → Prop} (hm : Spared t cx m R)
    (h : ∀ a cx', R a cx' → Q a cx') : Spared t cx m Q :=
  fun a cx' code hsome =>
    let ⟨hspares, htop, hR⟩ := hm a cx' code hsome
    ⟨hspares, htop, h a cx' hR⟩

/-- An item that writes no register. -/
theorem spares_still {item : Item W} (h : ∀ (M : Machine W) (f f' : Frame W),
    (item.run M f).frame? = some f' → f'.regs = f.regs) : item.Spares lo hi :=
  fun M f f' hf' r _ _ => by rw [h M f f' hf']

theorem spares_load (v : JsValue) (hdst : dst < lo ∨ hi ≤ dst) :
    (Item.load dst v : Item W).Spares lo hi :=
  spares_of_write hdst fun M f f' hf' r hr => by
    cases hf'
    exact write_regs_of_ne f _ hr

theorem spares_setEnv (depth slot src : Nat) : (Item.setEnv depth slot src : Item W).Spares lo hi :=
  spares_still fun M f f' hf' => by
    cases hf'
    rfl

theorem spares_throws (src : Nat) : (Item.throws src : Item W).Spares lo hi :=
  spares_still fun M f f' hf' => by cases hf'

theorem spares_branch (op : BranchOp) (cond target : Nat) :
    (Item.branch op cond target : Item W).Spares lo hi :=
  spares_still fun M f f' hf' => by
    simp only [Item.run] at hf'
    split at hf'
    · cases hf'
      rfl
    · cases hf'
      rfl

theorem spares_bind (l : Nat) : (Item.bind l : Item W).Spares lo hi :=
  spares_still fun M f f' hf' => by
    cases hf'
    rfl

/-- A temporary above those in use. -/
theorem Spared.newTempAbove (ht : t ≤ cx.tempTop) :
    Spared (W := W) t cx Expression.newTemp fun r _ => t ≤ r :=
  Spared.newTemp.imp fun _ _ h => h.1 ▸ ht

theorem Spared.label : Spared (W := W) t cx Expression.label fun _ _ => True := by
  intro l cx' code hsome
  cases hsome
  exact ⟨by simp, Nat.le_refl _, trivial⟩

theorem Spared.returning {item : Item W} {a : α} {R : α → FnCtx P → Prop}
    (hitem : item.Spares P.localsEnd t) (hR : ∀ cx', R a cx') :
    Spared t cx (Expression.emit item >>= fun _ => Pure.pure a) R :=
  (Spared.emit hitem).bind fun _ cx' _ _ => .pure (hR cx')

theorem spared_str (text : String) (ht : t ≤ cx.tempTop) :
    Spared (W := W) t cx (loadStrKey text) fun r _ => t ≤ r :=
  (spared_loadStrKey text ht).imp fun _ _ h => Nat.le_trans ht h.1

theorem spared_private (name : String) (ht : t ≤ cx.tempTop) :
    Spared (W := W) t cx (loadPrivateName name) fun r _ => t ≤ r :=
  (spared_loadPrivateName name ht).imp fun _ _ h => Nat.le_trans ht h.1

/-! ## §2 Variables -/

theorem spared_readAccess (access : VarAccess) (hdst : t ≤ dst) :
    Spared (W := W) t cx (readAccess access dst) fun _ _ => True := by
  cases access with
  | reg r => exact .emit (spares_move r (.inr hdst))
  | env depth slot => exact .emit (spares_getEnv depth slot (.inr hdst))
  | global name => exact .emit (spares_applyTo _ _ (.inr hdst))

theorem spared_storeAccess (sym src : Nat) :
    Spared (W := W) t cx (storeAccess (P.access sym) src) fun _ _ => True := by
  cases haccess : P.access sym with
  | reg r =>
    simp only [storeAccess]
    split
    case isTrue => exact .pure trivial
    case isFalse => exact .emit (spares_move src (.inl (P.access_reg sym r haccess)))
  | env depth slot => exact .emit (spares_setEnv depth slot src)
  | global name => exact .emit (spares_effect _ _)

theorem spared_emitTdzThrow (name : String) (ht : t ≤ cx.tempTop) :
    Spared (W := W) t cx (emitTdzThrow name) fun _ _ => True := by
  unfold emitTdzThrow
  refine (Spared.newTemps 3).bind fun block cx₁ t₁ hblock => ?_
  refine (Spared.emit (spares_applyTo _ _ (.inr (by omega)))).bind fun _ cx₂ t₂ _ => ?_
  refine (Spared.emit (spares_move _ (.inr (by omega)))).bind fun _ cx₃ t₃ _ => ?_
  refine (Spared.emit (spares_applyTo _ _ (.inr (by omega)))).bind fun _ cx₄ t₄ _ => ?_
  refine (Spared.newTempAbove (by omega)).bind fun err cx₅ t₅ herr => ?_
  refine (Spared.emit (spares_applyTo _ _ (.inr herr))).bind fun _ cx₆ _ _ => ?_
  exact .emit (spares_throws err)

theorem spared_guarded (sym : Nat) {reference : Emit P W Unit} (ht : t ≤ cx.tempTop)
    (hreference : ∀ cx' : FnCtx P, Spared t cx' reference fun _ _ => True) :
    Spared t cx (guarded sym reference) fun _ _ => True := by
  have htest : Spared (W := W) t cx (tdzTest sym) fun _ _ => True := by
    unfold tdzTest
    cases P.tdzFlag sym with
    | none => exact .pure trivial
    | some access =>
      refine (Spared.newTempAbove ht).bind fun flag cx₁ _ hflag => ?_
      refine (spared_readAccess access hflag).bind fun _ cx₂ _ _ => ?_
      refine Spared.label.bind fun uninit cx₃ _ _ => ?_
      exact (Spared.emit (spares_branch _ _ _)).bind fun _ _ _ _ => .pure trivial
  unfold guarded
  refine htest.bind fun res cx₁ t₁ _ => ?_
  cases res with
  | none => exact hreference cx₁
  | some uninit =>
    refine (hreference cx₁).bind fun _ cx₂ t₂ _ => ?_
    unfold tdzGuardEnd
    refine Spared.label.bind fun cont cx₃ t₃ _ => ?_
    refine (Spared.emit (spares_branch _ _ _)).bind fun _ cx₄ t₄ _ => ?_
    refine (Spared.emit (spares_bind _)).bind fun _ cx₅ t₅ _ => ?_
    exact (spared_emitTdzThrow _ (by omega)).bind fun _ _ _ _ => .emit (spares_bind _)

theorem spared_readBindingInto (sym : Nat) (ht : t ≤ cx.tempTop) (hdst : t ≤ dst) :
    Spared (W := W) t cx (readBindingInto sym dst) fun _ _ => True :=
  spared_guarded sym ht fun _ => spared_readAccess _ hdst

theorem spared_storeBindingReassign (sym src : Nat) (ht : t ≤ cx.tempTop) :
    Spared (W := W) t cx (storeBindingReassign sym src) fun _ _ => True :=
  spared_guarded sym ht fun _ => spared_storeAccess sym src

theorem spared_probes {key : Nat} (objs : List Nat) (ht : t ≤ cx.tempTop) (hdst : t ≤ dst) :
    Spared (W := W) t cx (objs.forM (probeWith key dst done)) fun _ _ => True := by
  induction objs generalizing cx with
  | nil => exact .pure trivial
  | cons obj objs ih =>
    refine Spared.bind (R := fun _ _ => True) ?_ fun _ cx₁ t₁ _ => ih (by omega)
    unfold probeWith
    refine (Spared.newTempAbove ht).bind fun hit cx₁ _ hhit => ?_
    refine (Spared.emit (spares_applyTo _ _ (.inr hhit))).bind fun _ cx₂ _ _ => ?_
    refine Spared.label.bind fun miss cx₃ _ _ => ?_
    refine (Spared.emit (spares_branch _ _ _)).bind fun _ cx₄ _ _ => ?_
    refine (Spared.emit (spares_applyTo _ _ (.inr hdst))).bind fun _ cx₅ _ _ => ?_
    exact (Spared.emit (spares_branch _ _ _)).bind fun _ _ _ _ => .emit (spares_bind miss)

theorem spared_readIdentifier (id : Ident) (ht : t ≤ cx.tempTop) :
    Spared (W := W) t cx (readIdentifier id) fun r _ => t ≤ r := by
  have hprobe {dst : Nat} {cx₁ : FnCtx P} (ht : t ≤ cx₁.tempTop) (hdst : t ≤ dst) :
      Spared (W := W) t cx₁ (emitWithProbe id.name dst) fun _ _ => True := by
    unfold emitWithProbe
    split
    case isTrue => exact .pure trivial
    case isFalse =>
      refine (spared_str _ ht).bind fun key cx₂ t₂ _ => ?_
      refine Spared.label.bind fun done cx₃ t₃ _ => ?_
      exact (spared_probes _ (by omega) hdst).bind fun _ _ _ _ => .pure trivial
  have hstatic {dst : Nat} {cx₁ : FnCtx P} (ht : t ≤ cx₁.tempTop) (hdst : t ≤ dst) :
      Spared (W := W) t cx₁ (readIdentifierStatic id dst) fun _ _ => True := by
    unfold readIdentifierStatic
    cases id.symbol with
    | some sym => exact spared_readBindingInto sym ht hdst
    | none =>
      simp only
      split_ifs
      · exact .emit (spares_load _ (.inr hdst))
      · exact .emit (spares_load _ (.inr hdst))
      · exact .emit (spares_load _ (.inr hdst))
      · exact .emit (spares_applyTo _ _ (.inr hdst))
  unfold readIdentifier
  refine (Spared.newTempAbove ht).bind fun dst cx₁ t₁ hdst => ?_
  refine (hprobe (by omega) hdst).bind fun done cx₂ t₂ _ => ?_
  refine (hstatic (by omega) hdst).bind fun _ cx₃ t₃ _ => ?_
  cases done with
  | none => exact (Spared.pure (R := fun _ _ => True) trivial).bind fun _ _ _ _ => .pure hdst
  | some l => exact .returning (spares_bind l) fun _ => hdst

/-! ## §3 References -/

theorem spared_readThis (ht : t ≤ cx.tempTop) :
    Spared (W := W) t cx readThis fun r _ => t ≤ r := by
  unfold readThis
  refine (Spared.newTempAbove ht).bind fun dst cx₁ _ hdst => ?_
  refine Spared.bind (R := fun _ _ => True) ?_ fun _ cx₂ _ _ => ?_
  · unfold thisItem
    cases P.thisSlot with
    | some slot => exact .emit (spares_getEnv _ _ (.inr hdst))
    | none => exact .emit (spares_move _ (.inr hdst))
  · unfold emitCheckThis
    split
    case isTrue => exact .returning (spares_effect _ _) fun _ => hdst
    case isFalse =>
      exact (Spared.pure (R := fun _ _ => True) trivial).bind fun _ _ _ _ => .pure hdst

theorem spared_superExpr (ht : t ≤ cx.tempTop) :
    Spared (W := W) t cx superExpr fun r _ => t ≤ r := by
  have hproto {cx₁ : FnCtx P} {arg : Nat} (ht : t ≤ cx₁.tempTop) :
      Spared (W := W) t cx₁ (do
        let base ← newTemp
        emit (.apply (.opcode .getPrototype) (some base) [arg])
        pure base) fun r _ => t ≤ r :=
    (Spared.newTempAbove ht).bind fun dst _ _ hdst =>
      .returning (spares_applyTo _ _ (.inr hdst)) fun _ => hdst
  unfold superExpr
  cases P.superHome with
  | none => exact .err
  | some home =>
    cases home with
    | objectMethod => exact (spared_readThis ht).bind fun _ _ t₁ _ => hproto (by omega)
    | classHome depth slot =>
      refine (Spared.newTempAbove ht).bind fun home cx₁ t₁ hhome => ?_
      exact (Spared.emit (spares_getEnv _ _ (.inr hhome))).bind fun _ _ t₂ _ => hproto (by omega)

theorem spared_emitMemberLoad (obj key : Nat) (isSuper : Bool) (ht : t ≤ cx.tempTop)
    (hdst : t ≤ dst) : Spared (W := W) t cx (emitMemberLoad dst obj key isSuper) fun _ _ => True := by
  cases isSuper with
  | true =>
    exact (spared_readThis ht).bind fun _ _ _ _ => .emit (spares_applyTo _ _ (.inr hdst))
  | false => exact .emit (spares_applyTo _ _ (.inr hdst))

theorem spared_readCurrent (ref : Ref) (ht : t ≤ cx.tempTop) :
    Spared (W := W) t cx (readCurrent ref) fun r _ => t ≤ r := by
  unfold readCurrent
  refine (Spared.newTempAbove ht).bind fun cur cx₁ t₁ hcur => ?_
  refine Spared.bind (R := fun _ _ => True) ?_ fun _ _ _ _ => .pure hcur
  cases ref with
  | id sym => exact spared_readBindingInto sym (by omega) hcur
  | global name => exact .emit (spares_applyTo _ _ (.inr hcur))
  | member obj key isSuper => exact spared_emitMemberLoad obj key isSuper (by omega) hcur

theorem spared_store (ref : Ref) (value : Nat) (ht : t ≤ cx.tempTop) :
    Spared (W := W) t cx (ref.store value) fun _ _ => True := by
  cases ref with
  | id sym => exact spared_storeAccess sym value
  | global name => exact .emit (spares_effect _ _)
  | member obj key isSuper =>
    cases isSuper with
    | true => exact (spared_readThis ht).bind fun _ _ _ _ => .emit (spares_effect _ _)
    | false => exact .emit (spares_effect _ _)

theorem spared_shortCircuit (op : LogicalOp) (cur : Nat) (ht : t ≤ cx.tempTop) :
    Spared (W := W) t cx (shortCircuit op cur done) fun _ _ => True := by
  cases op with
  | and => exact .emit (spares_branch _ _ _)
  | or => exact .emit (spares_branch _ _ _)
  | coalesce =>
    unfold shortCircuit nullishCmp
    refine Spared.bind (R := fun _ _ => True) ?_ fun cmp cx₁ _ _ => .emit (spares_branch _ _ _)
    refine (Spared.newTempAbove ht).bind fun null cx₁ t₁ hnull => ?_
    refine (Spared.emit (spares_load _ (.inr hnull))).bind fun _ cx₂ t₂ _ => ?_
    refine (Spared.newTempAbove (by omega)).bind fun cmp cx₃ _ hcmp => ?_
    exact .returning (spares_applyTo _ _ (.inr hcmp)) fun _ => trivial

/-! ## §4 Expressions -/

/-- The code of the form writes no register between the local variables and its own temporaries. -/
def OtherForm.Spares (lo : Nat) (form : OtherForm W) : Prop :=
  ∀ base f f', form.run base f = some f' → ∀ r, lo ≤ r → r < base → f'.regs r = f.regs r

mutual

/-- Every form without an arm of its own spares the temporaries in use. -/
def Expr.Spares (lo : Nat) : Expr W → Prop
  | .literal _ | .str _ | .this | .superBase | .ident _ => True
  | .paren e | .member e _ | .privateField e _ => e.Spares lo
  | .comma e e' | .binary _ e e' | .logical _ e e' | .computed e e' => e.Spares lo ∧ e'.Spares lo
  | .conditional e e' e'' => e.Spares lo ∧ e'.Spares lo ∧ e''.Spares lo
  | .assign target right | .logicalAssign _ target right => target.Spares lo ∧ right.Spares lo
  | .other form => form.Spares lo

def Target.Spares (lo : Nat) : Target W → Prop
  | .ident _ => True
  | .member e _ | .privateField e _ => e.Spares lo
  | .computed e e' => e.Spares lo ∧ e'.Spares lo

end

/-- Code that leaves the temporaries in use alone, and whose result is none of them. -/
def SparesAll (e : Emit P W Nat) : Prop :=
  ∀ (t : Nat) (cx : FnCtx P), t ≤ cx.tempTop → Spared t cx e fun r _ => t ≤ r

def SparesTarget (target : Emit P W Ref) : Prop :=
  ∀ (t : Nat) (cx : FnCtx P), t ≤ cx.tempTop → Spared t cx target fun _ _ => True

theorem SparesAll.logical {lhs rhs : Emit P W Nat} (op : LogicalOp) (hl : SparesAll lhs)
    (hr : SparesAll rhs) : SparesAll (Expression.logical op lhs rhs) := by
  intro t cx ht
  unfold Expression.logical
  refine (hl t cx ht).bind fun dst cx₁ t₁ hdst => ?_
  refine Spared.label.bind fun done cx₂ t₂ _ => ?_
  refine (spared_shortCircuit op dst (by omega)).bind fun _ cx₃ t₃ _ => ?_
  refine (hr t cx₃ (by omega)).bind fun r cx₄ _ _ => ?_
  refine (Spared.emit (spares_move r (.inr hdst))).bind fun _ cx₅ _ _ => ?_
  exact .returning (spares_bind done) fun _ => hdst

theorem SparesAll.logicalAssign {target : Emit P W Ref} {right : Emit P W Nat} (op : LogicalOp)
    (htarget : SparesTarget target) (hr : SparesAll right) :
    SparesAll (Expression.logicalAssign op target right) := by
  intro t cx ht
  unfold Expression.logicalAssign assignGuard
  refine (htarget t cx ht).bind fun ref cx₁ t₁ _ => ?_
  refine (spared_readCurrent ref (by omega)).bind fun cur cx₂ t₂ _ => ?_
  refine Spared.bind (R := fun _ _ => True) ?_ fun done cx₃ t₃ _ => ?_
  · refine Spared.label.bind fun done cx₃ t₃ _ => ?_
    exact (spared_shortCircuit op cur (by omega)).bind fun _ _ _ _ => .pure trivial
  refine (hr t cx₃ (by omega)).bind fun rhs cx₄ t₄ hrhs => ?_
  refine (spared_store ref rhs (by omega)).bind fun _ cx₅ _ _ => ?_
  exact .returning (spares_bind done) fun _ => hrhs

theorem SparesAll.assign {target : Emit P W Ref} {right : Emit P W Nat} (unbound : Option String)
    (hr : SparesAll right) (htarget : SparesTarget target) :
    SparesAll (Expression.assign unbound right target) := by
  have hbound : SparesAll (Expression.assign none right target) := by
    intro t cx ht
    unfold Expression.assign
    refine (hr t cx ht).bind fun rhs cx₂ t₂ hrhs => ?_
    refine (htarget t cx₂ (by omega)).bind fun ref cx₃ t₃ _ => ?_
    cases ref with
    | id sym =>
      exact (spared_storeBindingReassign sym rhs (by omega)).bind fun _ _ _ _ => .pure hrhs
    | global name =>
      exact (spared_store (.global name) rhs (by omega)).bind fun _ _ _ _ => .pure hrhs
    | member obj key isSuper =>
      exact (spared_store (.member obj key isSuper) rhs (by omega)).bind fun _ _ _ _ => .pure hrhs
  cases unbound with
  | none => exact hbound
  | some name =>
    intro t cx ht
    unfold Expression.assign
    simp only
    split
    case isTrue =>
      refine (Spared.newTempAbove ht).bind fun probe cx₁ t₁ hprobe => ?_
      exact (Spared.emit (spares_applyTo _ _ (.inr hprobe))).bind fun _ cx₂ t₂ _ =>
        hbound t cx₂ (by omega)
    case isFalse => exact hbound t cx ht

theorem SparesTarget.member {obj key : Emit P W Nat} (isSuper : Bool) (hobj : SparesAll obj)
    (hkey : SparesAll key) : SparesTarget (do
      let o ← obj
      let k ← key
      pure (Ref.member o k isSuper)) := fun t cx ht =>
  (hobj t cx ht).bind fun _ cx₁ t₁ _ =>
    (hkey t cx₁ (by omega)).bind fun _ _ _ _ => .pure trivial

/-- A value that a member is read of, and the key, in either order of evaluation. -/
theorem SparesAll.lookup {first second : Emit P W Nat} {load : Nat → Nat → Nat → Emit P W Unit}
    (hfirst : SparesAll first) (hsecond : SparesAll second)
    (hload : ∀ (t : Nat) (cx : FnCtx P) (dst a b : Nat), t ≤ cx.tempTop → t ≤ dst →
      Spared t cx (load dst a b) fun _ _ => True) : SparesAll (do
      let a ← first
      let b ← second
      let dst ← newTemp
      load dst a b
      pure dst) := by
  intro t cx ht
  refine (hfirst t cx ht).bind fun a cx₁ t₁ _ => ?_
  refine (hsecond t cx₁ (by omega)).bind fun b cx₂ t₂ _ => ?_
  refine (Spared.newTempAbove (by omega)).bind fun dst cx₃ t₃ hdst => ?_
  exact (hload t cx₃ dst a b (by omega) hdst).bind fun _ _ _ _ => .pure hdst

mutual

/-- **An expression leaves the temporaries in use as they are.** -/
theorem spares_expr : ∀ e : Expr W, e.Spares P.localsEnd → SparesAll (P := P) (expr e)
  | .literal v, _ => fun t cx ht => by
    refine (Spared.newTempAbove ht).bind fun dst cx₁ _ hdst => ?_
    exact .returning (spares_load v (.inr hdst)) fun _ => hdst
  | .str text, _ => fun _ _ ht => spared_str text ht
  | .this, _ => fun _ _ ht => spared_readThis ht
  | .superBase, _ => fun _ _ ht => spared_superExpr ht
  | .ident id, _ => fun _ _ ht => spared_readIdentifier id ht
  | .paren e, h => spares_expr e h
  | .comma first rest, h => fun t cx ht =>
    (spares_expr first h.1 t cx ht).bind fun _ cx₁ t₁ _ => spares_expr rest h.2 t cx₁ (by omega)
  | .binary op lhs rhs, h =>
    .lookup (spares_expr lhs h.1) (spares_expr rhs h.2) fun _ _ _ _ _ _ hdst =>
      .emit (spares_applyTo _ _ (.inr hdst))
  | .logical op lhs rhs, h => .logical op (spares_expr lhs h.1) (spares_expr rhs h.2)
  | .conditional test consequent alternate, h => fun t cx ht => by
    refine (spares_expr test h.1 t cx ht).bind fun cond cx₁ t₁ _ => ?_
    refine (Spared.newTempAbove (by omega)).bind fun dst cx₂ t₂ hdst => ?_
    refine Spared.label.bind fun elseL cx₃ t₃ _ => ?_
    refine Spared.label.bind fun endL cx₄ t₄ _ => ?_
    refine (Spared.emit (spares_branch _ _ _)).bind fun _ cx₅ t₅ _ => ?_
    refine (spares_expr consequent h.2.1 t cx₅ (by omega)).bind fun thenR cx₆ t₆ _ => ?_
    refine (Spared.emit (spares_move _ (.inr hdst))).bind fun _ cx₇ t₇ _ => ?_
    refine (Spared.emit (spares_branch _ _ _)).bind fun _ cx₈ t₈ _ => ?_
    refine (Spared.emit (spares_bind _)).bind fun _ cx₉ t₉ _ => ?_
    refine (spares_expr alternate h.2.2 t cx₉ (by omega)).bind fun elseR cx₁₀ _ _ => ?_
    refine (Spared.emit (spares_move _ (.inr hdst))).bind fun _ cx₁₁ _ _ => ?_
    exact .returning (spares_bind _) fun _ => hdst
  | .member obj name, h =>
    .lookup (spares_expr obj h) (fun _ _ ht => spared_str name ht) fun _ _ _ o k ht hdst =>
      spared_emitMemberLoad o k _ ht hdst
  | .computed obj key, h =>
    .lookup (spares_expr key h.2) (spares_expr obj h.1) fun _ _ _ k o ht hdst =>
      spared_emitMemberLoad o k _ ht hdst
  | .privateField obj name, h =>
    .lookup (spares_expr obj h) (fun _ _ ht => spared_private name ht) fun _ _ _ _ _ _ hdst =>
      .emit (spares_applyTo _ _ (.inr hdst))
  | .assign target right, h =>
    .assign _ (spares_expr right h.2) (spares_targetRef target h.1)
  | .logicalAssign op target right, h =>
    .logicalAssign op (spares_targetRef target h.1) (spares_expr right h.2)
  | .other form, h => fun t cx ht => by
    refine (Spared.newTemps form.temps).bind fun base cx₁ _ hbase => ?_
    refine .returning (fun M f f' hf' r hlo hhi => ?_) fun _ => by omega
    simp only [Item.run] at hf'
    split at hf'
    case h_1 => cases hf'
    case h_2 hrun =>
      cases hf'
      exact h base f _ hrun r hlo (by omega)

theorem spares_targetRef : ∀ target : Target W, target.Spares P.localsEnd →
    SparesTarget (P := P) (targetRef target)
  | .ident id, _ => fun t cx _ => by
    refine Spared.bind (R := fun _ _ => True) ?_ fun _ _ _ _ => .pure trivial
    unfold checkAssignTarget
    split_ifs
    · exact .err
    · exact .err
    · exact .pure trivial
  | .member obj name, h => .member _ (spares_expr obj h) fun _ _ ht => spared_str name ht
  | .computed obj key, h => fun t cx ht =>
    (spares_expr key h.2 t cx ht).bind fun _ cx₁ t₁ _ =>
      (spares_expr obj h.1 t cx₁ (by omega)).bind fun _ _ _ _ => .pure trivial
  | .privateField obj name, h =>
    .member _ (spares_expr obj h) fun _ _ ht => spared_private name ht

end

/-! ## §5 Parts and heads of a chain -/

/-- An expression as a key or an argument of a chain. -/
def Part.ofExpr (e : Expr W) (h : e.Spares P.localsEnd) : Part P W where
  emit := expr e
  fresh := fresh_expr e
  spares := fun cx a cx' code hsome =>
    (spares_expr e h cx.tempTop cx (Nat.le_refl _) a cx' code hsome).1

def Part.str (text : String) : Part P W := .ofExpr (.str text) trivial

def Part.privateName (name : String) : Part P W where
  emit := loadPrivateName name
  fresh := fun _ _ _ => disciplined_loadPrivateName name
  spares := Spared.sparesTemps fun _ => spared_private name (Nat.le_refl _)

/-- An expression as the head of a chain, with no object of which it is a member. -/
def Head.ofExpr (e : Expr W) (h : e.Spares P.localsEnd) : Head P W where
  emit := do
    let value ← expr e
    pure ⟨value, none⟩
  isSuper := e.isSuper
  fresh base cx hbase := (fresh_expr e base cx hbase).bind fun _ _ _ _ hvalue =>
    .pure ⟨hvalue, fun _ ho => by cases ho⟩
  spares := fun cx a cx' code hsome =>
    (((spares_expr e h cx.tempTop cx (Nat.le_refl _)).bind (Q := fun _ _ => True)
      fun _ _ _ _ => .pure trivial) a cx' code hsome).1

/-- `[]`, a form with no arm of its own: one temporary, and a new array in it. -/
def OtherForm.emptyArray (M : Machine W) : OtherForm W where
  temps := 1
  result := 0
  result_lt := Nat.one_pos
  run base f := (M.apply (.opcode .newArray) [] f.world).map fun res =>
    { f with world := res.2 }.write base res.1
  keeps base f f' h r hr := by
    obtain ⟨res, -, rfl⟩ := Option.map_eq_some_iff.mp h
    exact write_regs_of_ne _ _ (by omega)

theorem OtherForm.spares_emptyArray (M : Machine W) (lo : Nat) :
    (OtherForm.emptyArray M).Spares lo := by
  intro base f f' h r _ hr
  obtain ⟨res, -, rfl⟩ := Option.map_eq_some_iff.mp h
  exact write_regs_of_ne _ _ (Nat.ne_of_lt hr)

/-- `[]` as a key or an argument. -/
def Part.emptyArray (M : Machine W) : Part P W :=
  .ofExpr (.other (.emptyArray M)) (OtherForm.spares_emptyArray M _)

end V12.Expression
