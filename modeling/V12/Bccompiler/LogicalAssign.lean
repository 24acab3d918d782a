/-
V12.Bccompiler.LogicalAssign — the register of a logical assignment's value.

`logical_assign` returns the register of its right-hand side. On the path that
assigns, the register holds the assigned value; on the other path nothing has
written it since the expression was entered, and the value read from the target
is in another register. `logicalAssign_value_iff` says when the value is right.
-/
import V12.Bccompiler.Temporaries

namespace V12.Expression

open V12.Heap (JsValue)
open V12.Bytecode (BranchOp Opcode)

variable {P : Plans} {W α β : Type}
variable {M : Machine W} {f f' : Frame W} {code : List (Item W)} {m : Emit P W α} {cx cx' : FnCtx P}
  {a : α} {k : α → Emit P W β} {r dst sym n : Nat} {access : VarAccess} {op : LogicalOp}
  {target : Emit P W Ref} {right : Emit P W Nat}

/-! ## §1 What a logical assignment does -/

/-- An emission at work: compiled at the counters and run from the frame. -/
def Emit.runFrom (M : Machine W) (m : Emit P W α) (cx : FnCtx P) (f : Frame W) :
    Option (α × FnCtx P × Frame W) :=
  match m cx with
  | none => none
  | some (a, cx', code) => (completes M code f).map fun f' => (a, cx', f')

/-- The test of the guard on the current value: it keeps the value. -/
def LogicalOp.keeps (M : Machine W) (op : LogicalOp) (w : W) (current : JsValue) : Option Bool :=
  match op with
  | .and => some !M.toBoolean w current
  | .or => some (M.toBoolean w current)
  | .coalesce =>
    (M.apply (.opcode .eq) [current, .null] w).map fun result => !M.toBoolean result.2 result.1

/-- `this` in the frame. -/
def thisValue (M : Machine W) (P : Plans) (f : Frame W) : JsValue :=
  match P.thisSlot with
  | some (depth, slot) => M.envRead f.world depth slot
  | none => f.regs regThis

/-- The test of a derived constructor's `this`. -/
def checkThis (M : Machine W) (P : Plans) (w : W) (receiver : JsValue) : Option W :=
  if P.thisIsDerived then (M.apply (.opcode .checkThis) [receiver] w).map Prod.snd else some w

def VarAccess.current (M : Machine W) (access : VarAccess) (f : Frame W) : Option JsValue :=
  match access with
  | .reg r => some (f.regs r)
  | .env depth slot => some (M.envRead f.world depth slot)
  | .global name => (M.apply (.getGlobal name) [] f.world).map Prod.fst

def Ref.current (M : Machine W) (P : Plans) (ref : Ref) (f : Frame W) : Option JsValue :=
  match ref with
  | .id sym => (P.access sym).current M f
  | .global name => (VarAccess.global name).current M f
  | .member obj key false =>
    (M.apply (.opcode .getProperty) [f.regs obj, f.regs key] f.world).map Prod.fst
  | .member obj key true =>
    (checkThis M P f.world (thisValue M P f)).bind fun w =>
      (M.apply .getSuper [f.regs obj, f.regs key, thisValue M P f] w).map Prod.fst

/-- The two ways through a logical assignment, each with the value the expression has. -/
inductive Outcome where
  | kept (current : JsValue)
  | assigned (value : JsValue)

def Outcome.value : Outcome → JsValue
  | .kept v | .assigned v => v

/-- The reference: the target's head, its current value and the guard; where the guard
lets it through, the right-hand side and the store of its value. -/
def evaluation (M : Machine W) (op : LogicalOp) (target : Emit P W Ref) (right : Emit P W Nat)
    (cx : FnCtx P) (f : Frame W) : Option Outcome := do
  let (ref, cx₁, f₁) ← target.runFrom M cx f
  let current ← ref.current M P f₁
  let (cur, cx₂, f₂) ← (readCurrent ref).runFrom M cx₁ f₁
  if ← op.keeps M f₂.world current then some (.kept current)
  else
    let (_, cx₃, f₃) ← (assignGuard op cur).runFrom M cx₂ f₂
    let (rhs, cx₄, f₄) ← right.runFrom M cx₃ f₃
    let _ ← (ref.store rhs).runFrom M cx₄ f₄
    some (.assigned (f₄.regs rhs))

/-! ## §2 Runs of parts -/

theorem completes_append {code₁ code₂ : List (Item W)} {f₁ : Frame W}
    (h : exec M code₁ (.running f) = .running f₁) :
    completes M (code₁ ++ code₂) f = completes M code₂ f₁ := by
  unfold completes
  rw [exec_append, h]

theorem exec_of_completes (h : completes M code f = some f') :
    exec M code (.running f) = .running f' := by
  unfold completes at h
  split at h
  case h_1 g hrun =>
    cases h
    exact hrun
  case h_2 => cases h
  case h_3 => cases h

theorem runFrom_eq_some : m.runFrom M cx f = some (a, cx', f') ↔
      ∃ code, m cx = some (a, cx', code) ∧ exec M code (.running f) = .running f' := by
  unfold Emit.runFrom
  constructor
  · intro h
    split at h
    case h_1 => cases h
    case h_2 a₀ cx₀ code hm =>
      obtain ⟨g, hg, heq⟩ := Option.map_eq_some_iff.mp h
      cases heq
      exact ⟨code, hm, exec_of_completes hg⟩
  · rintro ⟨code, hm, hrun⟩
    simp only [hm, completes, hrun, Option.map_some]

def Straight (m : Emit P W α) : Prop :=
  ∀ cx a cx' code, m cx = some (a, cx', code) → ∀ op cond l, Item.branch op cond l ∉ code

theorem Straight.bind (hm : Straight m) (hk : ∀ a, Straight (k a)) : Straight (m >>= k) := by
  intro cx b cx' code hsome op cond l hmem
  obtain ⟨a, cx₁, code₁, code₂, hm₁, hk₁, rfl⟩ := bind_eq_some.mp hsome
  rcases List.mem_append.mp hmem with h | h
  · exact hm cx a cx₁ code₁ hm₁ op cond l h
  · exact hk a cx₁ b cx' code₂ hk₁ op cond l h

theorem Straight.pure (a : α) : Straight (pure a : Emit P W α) := by
  intro cx b cx' code hsome op cond l hmem
  cases hsome
  cases hmem

theorem Straight.emit {item : Item W} (h : ∀ op cond l, item ≠ .branch op cond l) :
    Straight (P := P) (emit item) := by
  intro cx b cx' code hsome op cond l hmem
  cases hsome
  exact h op cond l (List.mem_singleton.mp hmem).symm

theorem Straight.newTemps (n : Nat) : Straight (newTemps n : Emit P W Nat) := by
  intro cx b cx' code hsome op cond l hmem
  unfold Expression.newTemps at hsome
  split at hsome
  case isTrue =>
    cases hsome
    cases hmem
  case isFalse => cases hsome

theorem Straight.newTemp : Straight (newTemp : Emit P W Nat) := .newTemps 1

theorem Straight.not_seeking (hm : Straight m) (h : m cx = some (a, cx', code)) {l : Nat} :
    exec M code (.running f) ≠ .seeking l f' := by
  intro hrun
  rcases target_of_seeking M hrun with ⟨g, hg⟩ | ⟨op, cond, hmem⟩
  · cases hg
  · exact hm cx a cx' code h op cond l hmem

theorem runFrom_bind (hm : Straight m) {b : β} (h : (m >>= k).runFrom M cx f = some (b, cx', f')) :
    ∃ a cx₁ f₁, m.runFrom M cx f = some (a, cx₁, f₁) ∧
      (k a).runFrom M cx₁ f₁ = some (b, cx', f') := by
  obtain ⟨code, hcode, hrun⟩ := runFrom_eq_some.mp h
  obtain ⟨a, cx₁, code₁, code₂, hm₁, hk₁, rfl⟩ := bind_eq_some.mp hcode
  rw [exec_append] at hrun
  cases hfirst : exec M code₁ (.running f) with
  | left =>
    rw [hfirst, exec_left] at hrun
    cases hrun
  | seeking l g => exact absurd hfirst (hm.not_seeking hm₁)
  | running f₁ =>
    rw [hfirst] at hrun
    exact ⟨a, cx₁, f₁, runFrom_eq_some.mpr ⟨code₁, hm₁, hfirst⟩,
      runFrom_eq_some.mpr ⟨code₂, hk₁, hrun⟩⟩

theorem runFrom_emit {item : Item W}
    (h : (emit item : Emit P W Unit).runFrom M cx f = some ((), cx', f')) :
    cx' = cx ∧ item.run M f = .running f' := by
  obtain ⟨code, hcode, hrun⟩ := runFrom_eq_some.mp h
  cases hcode
  exact ⟨rfl, hrun⟩

theorem runFrom_pure {b : α} (h : (pure a : Emit P W α).runFrom M cx f = some (b, cx', f')) :
    b = a ∧ cx' = cx ∧ f' = f := by
  obtain ⟨code, hcode, hrun⟩ := runFrom_eq_some.mp h
  cases hcode
  cases hrun
  exact ⟨rfl, rfl, rfl⟩

theorem runFrom_returning {b c : β}
    (h : (m >>= fun _ => pure b).runFrom M cx f = some (c, cx', f')) :
    c = b ∧ ∃ a, m.runFrom M cx f = some (a, cx', f') := by
  obtain ⟨code, hcode, hrun⟩ := runFrom_eq_some.mp h
  obtain ⟨a, cx₁, code₁, code₂, hm, hpure, rfl⟩ := bind_eq_some.mp hcode
  cases hpure
  rw [List.append_nil] at hrun
  exact ⟨rfl, a, runFrom_eq_some.mpr ⟨code₁, hm, hrun⟩⟩

theorem runFrom_newTemp (h : (newTemp : Emit P W Nat).runFrom M cx f = some (r, cx', f')) :
    r = cx.tempTop ∧ f' = f ∧ cx'.tempTop = cx.tempTop + 1 := by
  obtain ⟨code, hcode, hrun⟩ := runFrom_eq_some.mp h
  unfold newTemp newTemps at hcode
  split at hcode
  case isTrue =>
    cases hcode
    cases hrun
    exact ⟨rfl, rfl, rfl⟩
  case isFalse => cases hcode

/-! ## §3 The current value -/

theorem write_regs_self (f : Frame W) (dst : Nat) (v : JsValue) : (f.write dst v).regs dst = v :=
  Function.update_self _ _ _

theorem write_regs_of_ne (f : Frame W) (v : JsValue) (h : r ≠ dst) :
    (f.write dst v).regs r = f.regs r := Function.update_of_ne h _ _

theorem run_applyTo {op : Op} {args : List Nat}
    (h : (Item.apply op (some dst) args).run M f = .running f') :
    ∃ v w, M.apply op (args.map f.regs) f.world = some (v, w) ∧
      f' = { f with world := w }.write dst v := by
  simp only [Item.run] at h
  split at h
  case h_1 => cases h
  case h_2 v w hv =>
    cases h
    exact ⟨v, w, hv, rfl⟩

theorem run_effect {op : Op} {args : List Nat}
    (h : (Item.apply op none args).run M f = .running f') :
    ∃ v w, M.apply op (args.map f.regs) f.world = some (v, w) ∧ f' = { f with world := w } := by
  simp only [Item.run] at h
  split at h
  case h_1 => cases h
  case h_2 v w hv =>
    cases h
    exact ⟨v, w, hv, rfl⟩

theorem thisItem_run (M : Machine W) (P : Plans) (dst : Nat) (f : Frame W) :
    (thisItem P dst).run M f = .running (f.write dst (thisValue M P f)) := by
  unfold thisItem thisValue
  cases P.thisSlot <;> rfl

theorem thisItem_ne_branch (P : Plans) (dst : Nat) (op : BranchOp) (cond l : Nat) :
    (thisItem P dst : Item W) ≠ .branch op cond l := by
  unfold thisItem
  cases P.thisSlot with
  | some slot => exact fun h => by cases h
  | none => exact fun h => by cases h

theorem straight_emitCheckThis (dst : Nat) : Straight (emitCheckThis dst : Emit P W Unit) := by
  unfold emitCheckThis
  split
  case isTrue => exact .emit fun _ _ _ h => by cases h
  case isFalse => exact .pure ()

theorem straight_readThis : Straight (readThis : Emit P W Nat) :=
  .bind .newTemp fun dst => .bind (.emit (thisItem_ne_branch P dst)) fun _ =>
    .bind (straight_emitCheckThis dst) fun _ => .pure dst

theorem runFrom_emitCheckThis (h : (emitCheckThis dst).runFrom M cx f = some ((), cx', f')) :
    ∃ w, checkThis M P f.world (f.regs dst) = some w ∧ f' = { f with world := w } := by
  unfold emitCheckThis at h
  unfold checkThis
  split at h
  case isTrue hderived =>
    rw [if_pos hderived]
    obtain ⟨-, hitem⟩ := runFrom_emit h
    obtain ⟨v, w, happly, rfl⟩ := run_effect hitem
    rw [List.map_singleton] at happly
    exact ⟨w, by rw [happly]; rfl, rfl⟩
  case isFalse hderived =>
    rw [if_neg hderived]
    obtain ⟨-, -, rfl⟩ := runFrom_pure h
    exact ⟨f'.world, rfl, rfl⟩

theorem runFrom_readThis (h : readThis.runFrom M cx f = some (r, cx', f')) :
    r = cx.tempTop ∧ ∃ w, checkThis M P f.world (thisValue M P f) = some w ∧
      f' = { f with world := w }.write r (thisValue M P f) := by
  unfold readThis at h
  obtain ⟨dst, cx₁, f₁, htemp, hload⟩ := runFrom_bind .newTemp h
  obtain ⟨rfl, rfl, -⟩ := runFrom_newTemp htemp
  obtain ⟨_, cx₂, f₂, hload, hcheck⟩ := runFrom_bind (.emit (thisItem_ne_branch P _)) hload
  obtain ⟨-, hitem⟩ := runFrom_emit hload
  rw [thisItem_run] at hitem
  cases hitem
  obtain ⟨_, cx₃, f₃, hcheck, hpure⟩ := runFrom_bind (straight_emitCheckThis _) hcheck
  obtain ⟨rfl, -, rfl⟩ := runFrom_pure hpure
  obtain ⟨w, hw, rfl⟩ := runFrom_emitCheckThis hcheck
  rw [write_regs_self] at hw
  exact ⟨rfl, w, hw, rfl⟩

theorem runFrom_emitMemberLoad {obj key : Nat} {isSuper : Bool}
    (h : (emitMemberLoad dst obj key isSuper).runFrom M cx f = some ((), cx', f'))
    (hobj : obj < cx.tempTop) (hkey : key < cx.tempTop) :
    (Ref.member obj key isSuper).current M P f = some (f'.regs dst) := by
  cases isSuper with
  | false =>
    obtain ⟨-, hitem⟩ := runFrom_emit h
    obtain ⟨v, w, happly, rfl⟩ := run_applyTo hitem
    simp only [Ref.current]
    rw [show [f.regs obj, f.regs key] = [obj, key].map f.regs from rfl, happly, write_regs_self]
    rfl
  | true =>
    obtain ⟨receiver, cx₁, f₁, hthis, hget⟩ := runFrom_bind straight_readThis h
    obtain ⟨rfl, w, hw, rfl⟩ := runFrom_readThis hthis
    obtain ⟨-, hitem⟩ := runFrom_emit hget
    obtain ⟨v, w', happly, rfl⟩ := run_applyTo hitem
    simp only [List.map_cons, List.map_nil, write_regs_self, write_regs_of_ne _ _ (Nat.ne_of_lt hobj),
      write_regs_of_ne _ _ (Nat.ne_of_lt hkey)] at happly
    simp only [Ref.current, hw, Option.bind_some, write_regs_self]
    rw [show M.apply .getSuper [f.regs obj, f.regs key, thisValue M P f] w = some (v, w') from happly]
    rfl

/-! ## §4 The dead zone -/

theorem runFrom_readAccess (h : (readAccess access dst).runFrom M cx f = some ((), cx', f')) :
    access.current M f = some (f'.regs dst) := by
  cases access with
  | reg r =>
    obtain ⟨-, hitem⟩ := runFrom_emit h
    cases hitem
    exact congrArg some (write_regs_self _ _ _).symm
  | env depth slot =>
    obtain ⟨-, hitem⟩ := runFrom_emit h
    cases hitem
    exact congrArg some (write_regs_self _ _ _).symm
  | global name =>
    obtain ⟨-, hitem⟩ := runFrom_emit h
    obtain ⟨v, w, happly, rfl⟩ := run_applyTo hitem
    simp only [VarAccess.current]
    rw [show M.apply (.getGlobal name) [] f.world = some (v, w) from happly, write_regs_self]
    rfl

theorem straight_readAccess (access : VarAccess) (dst : Nat) :
    Straight (readAccess access dst : Emit P W Unit) := by
  cases access <;> exact .emit fun _ _ _ h => by cases h

def Throws (m : Emit P W α) : Prop :=
  ∀ (M : Machine W) cx a cx' code f, m cx = some (a, cx', code) → exec M code (.running f) = .left

theorem Throws.bind (hm : Straight m) (hk : ∀ a, Throws (k a)) : Throws (m >>= k) := by
  intro M cx b cx' code f hsome
  obtain ⟨a, cx₁, code₁, code₂, hm₁, hk₁, rfl⟩ := bind_eq_some.mp hsome
  rw [exec_append]
  cases hfirst : exec M code₁ (.running f) with
  | left => exact exec_left M code₂
  | seeking l g => exact absurd hfirst (hm.not_seeking hm₁)
  | running g => exact hk a M cx₁ b cx' code₂ g hk₁

theorem throws_emitTdzThrow (name : String) : Throws (emitTdzThrow name : Emit P W Unit) := by
  unfold emitTdzThrow
  refine .bind (.newTemps 3) fun block => ?_
  refine .bind (.emit fun _ _ _ h => by cases h) fun _ => ?_
  refine .bind (.emit fun _ _ _ h => by cases h) fun _ => ?_
  refine .bind (.emit fun _ _ _ h => by cases h) fun _ => ?_
  refine .bind .newTemp fun err => ?_
  refine .bind (.emit fun _ _ _ h => by cases h) fun _ => ?_
  intro M cx a cx' code f hsome
  cases hsome
  rfl

theorem exec_tdzGuardEnd {uninit : Nat} (h : tdzGuardEnd sym uninit cx = some ((), cx', code))
    (huninit : uninit < cx.labels) (f : Frame W) :
    exec M code (.running f) = .running f ∧ exec M code (.seeking uninit f) = .left := by
  unfold tdzGuardEnd at h
  obtain ⟨cont, cx₁, code₁, rest₁, hlabel, hrest₁, rfl⟩ := bind_eq_some.mp h
  obtain ⟨_, cx₂, code₂, rest₂, hjump, hrest₂, rfl⟩ := bind_eq_some.mp hrest₁
  obtain ⟨_, cx₃, code₃, rest₃, hbind, hrest₃, rfl⟩ := bind_eq_some.mp hrest₂
  obtain ⟨_, cx₄, throw, rest₄, hthrow, hrest₄, rfl⟩ := bind_eq_some.mp hrest₃
  cases hlabel
  cases hjump
  cases hbind
  cases hrest₄
  have hne : uninit ≠ cx.labels := Nat.ne_of_lt huninit
  have hcont : Item.bind cx.labels ∉ throw := fun hmem => by
    have hle := (@disciplined_emitTdzThrow P W (cx.labels + 1) _ _ _ _ _ hthrow).1.binds _ hmem
    omega
  constructor
  · have hskip : exec M throw (.seeking cx.labels f) = .seeking cx.labels f := exec_seeking M hcont f
    simp only [exec, List.nil_append, List.singleton_append, List.foldl_cons, Item.exec, Item.run,
      taken, if_true, if_neg hne, List.foldl_append] at hskip ⊢
    rw [hskip]
    simp only [List.foldl_nil, if_true]
  · have hleft : exec M throw (.running f) = .left := throws_emitTdzThrow _ M _ _ _ _ f hthrow
    simp only [exec, List.nil_append, List.singleton_append, List.foldl_cons, Item.exec,
      if_true, List.foldl_append] at hleft ⊢
    rw [hleft]
    rfl

/-- The frame with only registers from `n` on changed. -/
structure AgreesBelow (n : Nat) (f g : Frame W) : Prop where
  world : g.world = f.world
  regs : ∀ r, r < n → g.regs r = f.regs r

theorem agreesBelow_write (f : Frame W) (v : JsValue) (h : n ≤ dst) :
    AgreesBelow n f (f.write dst v) :=
  ⟨rfl, fun _ hr => write_regs_of_ne f v (by omega)⟩

theorem runFrom_readAccess_local (hlocal : ∀ name, access ≠ .global name)
    (h : (readAccess access dst).runFrom M cx f = some ((), cx', f')) :
    ∃ v, f' = f.write dst v := by
  cases access with
  | reg r =>
    obtain ⟨-, hitem⟩ := runFrom_emit h
    cases hitem
    exact ⟨_, rfl⟩
  | env depth slot =>
    obtain ⟨-, hitem⟩ := runFrom_emit h
    cases hitem
    exact ⟨_, rfl⟩
  | global name => exact absurd rfl (hlocal name)

theorem exec_tdzTest {res : Option Nat} (h : tdzTest sym cx = some (res, cx', code)) (f : Frame W) :
    (res = none ∧ cx' = cx ∧ code = []) ∨
      ∃ uninit, res = some uninit ∧ uninit < cx'.labels ∧
        (exec M code (.running f) = .left ∨ ∃ g, AgreesBelow cx.tempTop f g ∧
          (exec M code (.running f) = .running g ∨ exec M code (.running f) = .seeking uninit g)) := by
  unfold tdzTest at h
  cases hflag : P.tdzFlag sym with
  | none =>
    rw [hflag] at h
    cases h
    exact .inl ⟨rfl, rfl, rfl⟩
  | some access =>
    rw [hflag] at h
    obtain ⟨flag, cx₁, code₁, rest₁, htemp, hrest₁, rfl⟩ := bind_eq_some.mp h
    obtain ⟨_, cx₂, readCode, rest₂, hread, hrest₂, rfl⟩ := bind_eq_some.mp hrest₁
    obtain ⟨uninit, cx₃, code₃, rest₃, hlabel, hrest₃, rfl⟩ := bind_eq_some.mp hrest₂
    obtain ⟨_, cx₄, code₄, rest₄, hbranch, hrest₄, rfl⟩ := bind_eq_some.mp hrest₃
    cases hlabel
    cases hbranch
    cases hrest₄
    have hnil : exec M code₁ (.running f) = .running f ∧ cx.tempTop ≤ flag := by
      unfold newTemp newTemps at htemp
      split at htemp
      case isTrue =>
        cases htemp
        exact ⟨rfl, Nat.le_refl _⟩
      case isFalse => cases htemp
    refine .inr ⟨cx₂.labels, rfl, Nat.lt_succ_self _, ?_⟩
    rw [exec_append, exec_append, hnil.1]
    cases hrun : exec M readCode (.running f) with
    | left => exact .inl (exec_left M _)
    | seeking l g => exact absurd hrun ((straight_readAccess access flag).not_seeking hread)
    | running g =>
      have hlocal : ∀ name, access ≠ .global name := fun name hname =>
        P.tdzFlag_local sym name (by rw [hflag, hname])
      obtain ⟨v, rfl⟩ := runFrom_readAccess_local hlocal
        (runFrom_eq_some.mpr ⟨readCode, hread, hrun⟩)
      refine .inr ⟨f.write flag v, agreesBelow_write f v hnil.2, ?_⟩
      simp only [exec, List.nil_append, List.singleton_append, List.foldl_cons, List.foldl_nil,
        Item.exec, Item.run]
      split
      case isTrue => exact .inr rfl
      case isFalse => exact .inl rfl

theorem runFrom_guarded {reference : Emit P W Unit} (hstraight : Straight reference)
    (hreference : ∀ cx₁ : FnCtx P, cx.tempTop ≤ cx₁.tempTop →
      Disciplined cx₁.labels cx₁ reference fun _ _ => True)
    (h : (guarded sym reference).runFrom M cx f = some ((), cx', f')) :
    ∃ cx₁ cx₂ g, reference.runFrom M cx₁ g = some ((), cx₂, f') ∧
      AgreesBelow cx.tempTop f g := by
  obtain ⟨code, hcode, hrun⟩ := runFrom_eq_some.mp h
  obtain ⟨res, cx₁, testCode, restCode, htest, hrest, rfl⟩ := bind_eq_some.mp hcode
  have htemps := (disciplined_tdzTest sym (Nat.le_refl cx.labels) _ _ _ htest).1.temps
  rw [exec_append] at hrun
  rcases exec_tdzTest (M := M) htest f with ⟨rfl, rfl, rfl⟩ | ⟨uninit, rfl, hlt, hmode⟩
  · exact ⟨_, cx', f, runFrom_eq_some.mpr ⟨restCode, hrest, hrun⟩, rfl, fun _ _ => rfl⟩
  · obtain ⟨_, cx₂, refCode, endCode, href, hend, rfl⟩ := bind_eq_some.mp hrest
    have hdisc := (hreference cx₁ htemps _ _ _ href).1
    have hends := exec_tdzGuardEnd (M := M) hend (Nat.lt_of_lt_of_le hlt hdisc.labels)
    rcases hmode with hleft | ⟨g, hagrees, hrunning | hseeking⟩
    · rw [hleft, exec_left] at hrun
      cases hrun
    · -- the binding is initialized
      rw [hrunning, exec_append] at hrun
      cases hmid : exec M refCode (.running g) with
      | left =>
        rw [hmid, exec_left] at hrun
        cases hrun
      | seeking l g' => exact absurd hmid (hstraight.not_seeking href)
      | running g' =>
        rw [hmid, (hends g').1] at hrun
        cases hrun
        exact ⟨cx₁, cx₂, g, runFrom_eq_some.mpr ⟨refCode, href, hmid⟩, hagrees⟩
    · -- in the dead zone the code throws
      have hskip : Item.bind uninit ∉ refCode := fun hmem =>
        absurd (hdisc.binds uninit hmem) (Nat.not_le_of_lt hlt)
      rw [hseeking, exec_append, exec_seeking M hskip, (hends g).2] at hrun
      cases hrun

theorem VarAccess.current_congr {g : Frame W} (h : AgreesBelow n f g)
    (hreg : ∀ r, access = .reg r → r < n) :
    access.current M f = access.current M g := by
  cases access with
  | reg r => exact congrArg some (h.regs r (hreg r rfl)).symm
  | env depth slot => simp only [VarAccess.current, h.world]
  | global name => simp only [VarAccess.current, h.world]

/-- **The register that is tested holds the target's current value.** -/
theorem runFrom_readCurrent {ref : Ref} {cur : Nat} (hbelow : ref.Below cx.tempTop)
    (h : (readCurrent ref).runFrom M cx f = some (cur, cx', f')) :
    ref.current M P f = some (f'.regs cur) := by
  unfold readCurrent at h
  obtain ⟨r, cx₁, f₁, htemp, hrest⟩ := runFrom_bind .newTemp h
  obtain ⟨rfl, rfl, htop⟩ := runFrom_newTemp htemp
  obtain ⟨rfl, _, hread⟩ := runFrom_returning hrest
  have hlt : cx.tempTop < cx₁.tempTop := by omega
  cases ref with
  | id sym =>
    obtain ⟨cx₂, cx₃, g, haccess, hagrees⟩ := runFrom_guarded (straight_readAccess _ _)
      (fun cx₂ ht => disciplined_readAccess _ (Nat.lt_of_lt_of_le hlt ht)) hread
    have hreg : ∀ r, P.access sym = .reg r → r < cx₁.tempTop := fun r hr =>
      Nat.lt_trans (P.access_reg sym r hr) cx₁.above
    exact (VarAccess.current_congr hagrees hreg).trans (runFrom_readAccess haccess)
  | global name =>
    have hglobal : (readAccess (.global name) cx.tempTop).runFrom M cx₁ f₁ =
        some ((), cx', f') := hread
    exact runFrom_readAccess hglobal
  | member obj key isSuper =>
    exact runFrom_emitMemberLoad hread (Nat.lt_trans hbelow.1 hlt) (Nat.lt_trans hbelow.2 hlt)

/-! ## §5 The guard and the store -/

theorem exec_nullishCmp {v cmp : Nat} (h : nullishCmp v cx = some (cmp, cx', code))
    (hv : v < cx.tempTop) (f : Frame W) :
    (M.apply (.opcode .eq) [f.regs v, .null] f.world = none → exec M code (.running f) = .left) ∧
    ∀ result w, M.apply (.opcode .eq) [f.regs v, .null] f.world = some (result, w) →
      ∃ g, exec M code (.running f) = .running g ∧ g.world = w ∧ g.regs cmp = result := by
  unfold nullishCmp at h
  obtain ⟨null, cx₁, code₁, rest₁, htemp₁, hrest₁, rfl⟩ := bind_eq_some.mp h
  obtain ⟨_, cx₂, code₂, rest₂, hload, hrest₂, rfl⟩ := bind_eq_some.mp hrest₁
  obtain ⟨r, cx₃, code₃, rest₃, htemp₂, hrest₃, rfl⟩ := bind_eq_some.mp hrest₂
  obtain ⟨_, cx₄, code₄, rest₄, heq, hpure, rfl⟩ := bind_eq_some.mp hrest₃
  cases hload
  cases heq
  cases hpure
  unfold newTemp newTemps at htemp₁ htemp₂
  split at htemp₁
  case isFalse => cases htemp₁
  case isTrue =>
    cases htemp₁
    split at htemp₂
    case isFalse => cases htemp₂
    case isTrue =>
      cases htemp₂
      have hargs : [v, cx.tempTop].map (f.write cx.tempTop .null).regs = [f.regs v, .null] := by
        rw [List.map_cons, List.map_singleton, write_regs_self, write_regs_of_ne _ _ (Nat.ne_of_lt hv)]
      simp only [exec, List.nil_append, List.singleton_append, List.append_nil, List.foldl_cons,
        List.foldl_nil, Item.exec, Item.run, hargs]
      rw [show (f.write cx.tempTop .null).world = f.world from rfl]
      constructor
      · intro hnone
        rw [hnone]
      · intro result w hsome
        rw [hsome]
        exact ⟨_, rfl, rfl, write_regs_self _ _ _⟩

/-- **The guard** goes to its label exactly when the operator keeps the current value. -/
theorem exec_assignGuard {cur done : Nat} (h : assignGuard op cur cx = some (done, cx', code))
    (hcur : cur < cx.tempTop) (f : Frame W) :
    (op.keeps M f.world (f.regs cur) = none → exec M code (.running f) = .left) ∧
    (op.keeps M f.world (f.regs cur) = some true →
      ∃ g, exec M code (.running f) = .seeking done g) ∧
    (op.keeps M f.world (f.regs cur) = some false →
      ∃ g, exec M code (.running f) = .running g) := by
  unfold assignGuard at h
  obtain ⟨l, cx₁, code₁, rest₁, hlabel, hrest₁, rfl⟩ := bind_eq_some.mp h
  obtain ⟨_, cx₂, code₂, rest₂, hguard, hpure, rfl⟩ := bind_eq_some.mp hrest₁
  cases hlabel
  cases hpure
  rw [List.nil_append, List.append_nil]
  cases op with
  | and =>
    cases hguard
    have hexec : exec M [.branch .jumpIfFalse cur cx.labels] (.running f) =
        if !M.toBoolean f.world (f.regs cur) then .seeking cx.labels f else .running f := rfl
    rw [hexec]
    refine ⟨(fun hk => by cases hk), fun hk => ⟨f, ?_⟩, fun hk => ⟨f, ?_⟩⟩
    · rw [if_pos (Option.some.inj hk)]
    · rw [if_neg (Bool.eq_false_iff.mp (Option.some.inj hk))]
  | or =>
    cases hguard
    have hexec : exec M [.branch .jumpIfTrue cur cx.labels] (.running f) =
        if M.toBoolean f.world (f.regs cur) then .seeking cx.labels f else .running f := rfl
    rw [hexec]
    refine ⟨(fun hk => by cases hk), fun hk => ⟨f, ?_⟩, fun hk => ⟨f, ?_⟩⟩
    · rw [if_pos (Option.some.inj hk)]
    · rw [if_neg (Bool.eq_false_iff.mp (Option.some.inj hk))]
  | coalesce =>
    obtain ⟨cmp, cx₃, cmpCode, branchCode, hcmp, hbranch, rfl⟩ := bind_eq_some.mp hguard
    cases hbranch
    obtain ⟨hleft, hruns⟩ := exec_nullishCmp (M := M) hcmp hcur f
    unfold LogicalOp.keeps
    rw [exec_append]
    cases happly : M.apply (.opcode .eq) [f.regs cur, .null] f.world with
    | none =>
      rw [hleft happly]
      exact ⟨fun _ => rfl, (fun hk => by cases hk), (fun hk => by cases hk)⟩
    | some res =>
      obtain ⟨result, w⟩ := res
      obtain ⟨g, hg, rfl, rfl⟩ := hruns result w happly
      have hexec : exec M [.branch .jumpIfFalse cmp cx.labels] (.running g) =
          if !M.toBoolean g.world (g.regs cmp) then .seeking cx.labels g else .running g := rfl
      rw [hg, hexec]
      refine ⟨(fun hk => by cases hk), fun hk => ⟨g, ?_⟩, fun hk => ⟨g, ?_⟩⟩
      · rw [if_pos (Option.some.inj hk)]
      · rw [if_neg (Bool.eq_false_iff.mp (Option.some.inj hk))]

theorem straight_store (ref : Ref) (value : Nat) : Straight (ref.store value : Emit P W Unit) := by
  cases ref with
  | id sym =>
    simp only [Ref.store]
    cases P.access sym with
    | reg r =>
      simp only [storeAccess]
      split
      case isTrue => exact .pure ()
      case isFalse => exact .emit fun _ _ _ h => by cases h
    | env depth slot => exact .emit fun _ _ _ h => by cases h
    | global name => exact .emit fun _ _ _ h => by cases h
  | global name => exact .emit fun _ _ _ h => by cases h
  | member obj key isSuper =>
    cases isSuper with
    | false => exact .emit fun _ _ _ h => by cases h
    | true => exact .bind straight_readThis fun _ => .emit fun _ _ _ h => by cases h

theorem runFrom_store {ref : Ref} {value r : Nat} (hr : r < cx.tempTop)
    (hlocal : ∀ sym dst, P.access sym = .reg dst → dst ≠ value → r ≠ dst)
    (h : (ref.store value).runFrom M cx f = some ((), cx', f')) : f'.regs r = f.regs r := by
  have heffect {op : Op} {args : List Nat} {cx₁ : FnCtx P} {g : Frame W}
      (hrun : Emit.runFrom M (emit (.apply op none args)) cx₁ g = some ((), cx', f')) :
      f'.regs r = g.regs r := by
    obtain ⟨v, w, -, rfl⟩ := run_effect (runFrom_emit hrun).2
    rfl
  cases ref with
  | id sym =>
    simp only [Ref.store] at h
    cases haccess : P.access sym with
    | reg dst =>
      rw [haccess] at h
      simp only [storeAccess] at h
      split at h
      case isTrue =>
        obtain ⟨-, -, rfl⟩ := runFrom_pure h
        rfl
      case isFalse hne =>
        have hitem := (runFrom_emit h).2
        cases hitem
        exact write_regs_of_ne _ _ (hlocal sym dst haccess hne)
    | env depth slot =>
      rw [haccess] at h
      have hitem := (runFrom_emit h).2
      cases hitem
      rfl
    | global name =>
      rw [haccess] at h
      exact heffect h
  | global name => exact heffect h
  | member obj key isSuper =>
    cases isSuper with
    | false => exact heffect h
    | true =>
      obtain ⟨receiver, cx₁, f₁, hthis, hset⟩ := runFrom_bind straight_readThis h
      obtain ⟨rfl, w, -, rfl⟩ := runFrom_readThis hthis
      exact (heffect hset).trans (write_regs_of_ne _ _ (Nat.ne_of_lt hr))

/-! ## §6 The value's register -/

theorem runFrom_of_running {g : Frame W} (h : m cx = some (a, cx', code))
    (hrun : exec M code (.running f) = .running g) : m.runFrom M cx f = some (a, cx', g) :=
  runFrom_eq_some.mpr ⟨code, h, hrun⟩

theorem runFrom_eq_none (h : m cx = some (a, cx', code))
    (hrun : ∀ g, exec M code (.running f) ≠ .running g) : m.runFrom M cx f = none := by
  cases hsome : m.runFrom M cx f with
  | none => rfl
  | some res =>
    obtain ⟨b, cx₁, g⟩ := res
    obtain ⟨code', hcode, hg⟩ := runFrom_eq_some.mp hsome
    rw [h] at hcode
    cases hcode
    exact absurd hg (hrun g)

theorem completes_eq_none {rest : List (Item W)}
    (htargets : ∀ op cond l, Item.branch op cond l ∈ code → l < n)
    (hbinds : ∀ l, Item.bind l ∈ rest → n ≤ l) (hrun : ∀ g, exec M code (.running f) ≠ .running g) :
    completes M (code ++ rest) f = none := by
  unfold completes
  rw [exec_append]
  cases hmode : exec M code (.running f) with
  | running g => exact absurd hmode (hrun g)
  | left => rw [exec_left]
  | seeking l g =>
    have hl : l < n := by
      rcases target_of_seeking M hmode with ⟨g', hg'⟩ | ⟨op, cond, hmem⟩
      · cases hg'
      · exact htargets op cond l hmem
    rw [exec_seeking M fun hmem => absurd (hbinds l hmem) (Nat.not_le_of_lt hl)]

/-- The code of a logical assignment by its parts, each under the discipline. -/
structure Parts (op : LogicalOp) (target : Emit P W Ref) (right : Emit P W Nat) (cx : FnCtx P)
    (r : Nat) (code : List (Item W)) where
  ref : Ref
  cur : Nat
  done : Nat
  cx₁ : FnCtx P
  cx₂ : FnCtx P
  cx₃ : FnCtx P
  cx₄ : FnCtx P
  cx₅ : FnCtx P
  head : List (Item W)
  read : List (Item W)
  guard : List (Item W)
  value : List (Item W)
  store : List (Item W)
  head_eq : target cx = some (ref, cx₁, head)
  read_eq : readCurrent ref cx₁ = some (cur, cx₂, read)
  guard_eq : assignGuard op cur cx₂ = some (done, cx₃, guard)
  value_eq : right cx₃ = some (r, cx₄, value)
  store_eq : ref.store r cx₄ = some ((), cx₅, store)
  code_eq : code = head ++ (read ++ (guard ++ (value ++ (store ++ [.bind done]))))
  head_ok : Emitted cx.labels cx cx₁ head ∧ ref.Below cx₁.tempTop
  read_ok : Emitted cx₁.labels cx₁ cx₂ read ∧ Fresh cx₁ cur cx₂
  guard_ok : Emitted cx₂.labels cx₂ cx₃ guard ∧ cx₂.labels ≤ done ∧ done < cx₃.labels
  value_ok : Emitted cx₃.labels cx₃ cx₄ value ∧ Fresh cx₃ r cx₄
  store_ok : Emitted cx₄.labels cx₄ cx₅ store

theorem exists_parts (ht : FreshTarget target) (hr : FreshExpr right)
    (h : logicalAssign op target right cx = some (r, cx', code)) :
    Nonempty (Parts op target right cx r code) := by
  unfold logicalAssign at h
  obtain ⟨ref, cx₁, head, rest₁, hhead, hrest₁, rfl⟩ := bind_eq_some.mp h
  obtain ⟨cur, cx₂, read, rest₂, hread, hrest₂, rfl⟩ := bind_eq_some.mp hrest₁
  obtain ⟨done, cx₃, guard, rest₃, hguard, hrest₃, rfl⟩ := bind_eq_some.mp hrest₂
  obtain ⟨rhs, cx₄, value, rest₄, hvalue, hrest₄, rfl⟩ := bind_eq_some.mp hrest₃
  obtain ⟨_, cx₅, store, rest₅, hstore, hrest₅, rfl⟩ := bind_eq_some.mp hrest₄
  obtain ⟨_, cx₆, bindCode, rest₆, hbind, hpure, rfl⟩ := bind_eq_some.mp hrest₅
  cases hbind
  cases hpure
  exact ⟨{
    ref, cur, done, cx₁, cx₂, cx₃, cx₄, cx₅ := cx', head, read, guard, value, store
    head_eq := hhead
    read_eq := hread
    guard_eq := hguard
    value_eq := hvalue
    store_eq := hstore
    code_eq := by rw [List.append_nil]
    head_ok := ht _ _ (Nat.le_refl _) _ _ _ hhead
    read_ok := disciplined_readCurrent ref (Nat.le_refl _) _ _ _ hread
    guard_ok := disciplined_assignGuard op cur (Nat.le_refl _) _ _ _ hguard
    value_ok := hr _ _ (Nat.le_refl _) _ _ _ hvalue
    store_ok := (disciplined_store ref r _ _ _ hstore).1 }⟩

namespace Parts

variable {op : LogicalOp} {target : Emit P W Ref} {right : Emit P W Nat} {cx : FnCtx P} {r : Nat}
  {code : List (Item W)} (p : Parts op target right cx r code)

theorem binds_value {l : Nat} (h : Item.bind l ∈ p.value ++ p.store) : p.cx₃.labels ≤ l := by
  rcases List.mem_append.mp h with hmem | hmem
  · exact p.value_ok.1.binds l hmem
  · exact Nat.le_trans p.value_ok.1.labels (p.store_ok.binds l hmem)

theorem binds_guard {l : Nat}
    (h : Item.bind l ∈ p.guard ++ (p.value ++ (p.store ++ [.bind p.done]))) :
    p.cx₂.labels ≤ l := by
  have hguard := p.guard_ok
  rw [← List.append_assoc p.value] at h
  rcases List.mem_append.mp h with hmem | hmem
  · exact hguard.1.binds l hmem
  · rcases List.mem_append.mp hmem with hvalue | hdone
    · exact Nat.le_trans hguard.1.labels (p.binds_value hvalue)
    · cases List.mem_singleton.mp hdone
      exact hguard.2.1

theorem binds_read {l : Nat}
    (h : Item.bind l ∈ p.read ++ (p.guard ++ (p.value ++ (p.store ++ [.bind p.done])))) :
    p.cx₁.labels ≤ l := by
  rcases List.mem_append.mp h with hmem | hmem
  · exact p.read_ok.1.binds l hmem
  · exact Nat.le_trans p.read_ok.1.labels (p.binds_guard hmem)

theorem keeps_guard {M : Machine W} {f g : Frame W} {mode : Mode W}
    (hrun : exec M (p.head ++ (p.read ++ p.guard)) (.running f) = mode)
    (hframe : mode.frame? = some g) : g.regs r = f.regs r := by
  have htop₂ := p.read_ok.1.temps
  have htop₃ := p.guard_ok.1.temps
  refine exec_keeps (n := p.cx₃.tempTop) (f := f) M (fun item hitem => ?_) rfl
    (by rw [hrun]; exact hframe) r p.value_ok.2.1
  rcases List.mem_append.mp hitem with hmem | hmem
  · exact (p.head_ok.1.keeps item hmem).mono (by omega)
  · rcases List.mem_append.mp hmem with hread | hguard
    · exact (p.read_ok.1.keeps item hread).mono (by omega)
    · exact p.guard_ok.1.keeps item hguard

end Parts

theorem Parts.run_assigns (p : Parts op target right cx r code) (f : Frame W) :
    (∃ cx₅ f₄ f₅, right.runFrom M p.cx₃ f = some (r, p.cx₄, f₄) ∧
      (p.ref.store r).runFrom M p.cx₄ f₄ = some ((), cx₅, f₅) ∧
      completes M (p.value ++ (p.store ++ [.bind p.done])) f = some f₅ ∧
      f₅.regs r = f₄.regs r) ∨
    (completes M (p.value ++ (p.store ++ [.bind p.done])) f = none ∧
      (right.runFrom M p.cx₃ f = none ∨ ∃ f₄, right.runFrom M p.cx₃ f = some (r, p.cx₄, f₄) ∧
        (p.ref.store r).runFrom M p.cx₄ f₄ = none)) := by
  have hdone := p.guard_ok.2.2
  by_cases hvalue : ∃ f₄, exec M p.value (.running f) = .running f₄
  · obtain ⟨f₄, hf₄⟩ := hvalue
    have hright := runFrom_of_running p.value_eq hf₄
    rw [completes_append hf₄]
    by_cases hstore : ∃ f₅, exec M p.store (.running f₄) = .running f₅
    · obtain ⟨f₅, hf₅⟩ := hstore
      have hrun := runFrom_of_running p.store_eq hf₅
      rw [completes_append hf₅]
      exact .inl ⟨p.cx₅, f₄, f₅, hright, hrun, rfl, 
        runFrom_store p.value_ok.2.2 (fun _ _ _ => Ne.symm) hrun⟩
    · have hne : ∀ g, exec M p.store (.running f₄) ≠ .running g := fun g hg => hstore ⟨g, hg⟩
      refine .inr ⟨?_, .inr ⟨f₄, hright, runFrom_eq_none p.store_eq hne⟩⟩
      cases hmode : exec M p.store (.running f₄) with
      | running g => exact absurd hmode (hne g)
      | seeking l g => exact absurd hmode ((straight_store p.ref r).not_seeking p.store_eq)
      | left => rw [completes, exec_append, hmode, exec_left]
  · have hne : ∀ g, exec M p.value (.running f) ≠ .running g := fun g hg => hvalue ⟨g, hg⟩
    refine .inr ⟨?_, .inl (runFrom_eq_none p.value_eq hne)⟩
    unfold completes
    rw [exec_append]
    cases hmode : exec M p.value (.running f) with
    | running g => exact absurd hmode (hne g)
    | left => rw [exec_left]
    | seeking l g =>
      -- a label of the right-hand side is neither bound by the store nor the own one
      obtain ⟨hlow, hhigh⟩ : p.cx₃.labels ≤ l ∧ l < p.cx₄.labels := by
        rcases target_of_seeking M hmode with ⟨g', hg'⟩ | ⟨bop, cond, hmem⟩
        · cases hg'
        · exact p.value_ok.1.targets bop cond l hmem
      rw [exec_seeking M fun hmem => ?_]
      rcases List.mem_append.mp hmem with hstore | hown
      · exact absurd (p.store_ok.binds l hstore) (Nat.not_le_of_lt hhigh)
      · cases List.mem_singleton.mp hown
        omega

/-- **The code runs through exactly when the reference does**; a kept value leaves the
register as it was when the expression was entered, an assigned one is in it. -/
theorem Parts.run (p : Parts op target right cx r code) (f : Frame W) :
    (evaluation M op target right cx f = none ∧ completes M code f = none) ∨
    ∃ o f', evaluation M op target right cx f = some o ∧ completes M code f = some f' ∧
      (∀ v, o = .kept v → f'.regs r = f.regs r) ∧ ∀ v, o = .assigned v → f'.regs r = v := by
  have hcode := p.code_eq
  by_cases hhead : ∃ f₁, exec M p.head (.running f) = .running f₁
  swap
  · have hne : ∀ g, exec M p.head (.running f) ≠ .running g := fun g hg => hhead ⟨g, hg⟩
    refine .inl ⟨by rw [evaluation, runFrom_eq_none p.head_eq hne]; rfl, ?_⟩
    rw [hcode]
    exact completes_eq_none (fun bop cond l hl => (p.head_ok.1.targets bop cond l hl).2)
      (fun l hl => p.binds_read hl) hne
  obtain ⟨f₁, hf₁⟩ := hhead
  have htarget := runFrom_of_running p.head_eq hf₁
  by_cases hread : ∃ f₂, exec M p.read (.running f₁) = .running f₂
  swap
  · have hne : ∀ g, exec M p.read (.running f₁) ≠ .running g := fun g hg => hread ⟨g, hg⟩
    refine .inl ⟨?_, ?_⟩
    · simp only [evaluation, htarget, runFrom_eq_none p.read_eq hne, Option.bind_eq_bind,
        Option.bind_some, Option.bind_none]
      cases p.ref.current M P f₁ <;> rfl
    · rw [hcode, completes_append hf₁]
      exact completes_eq_none (fun bop cond l hl => (p.read_ok.1.targets bop cond l hl).2)
        (fun l hl => p.binds_guard hl) hne
  obtain ⟨f₂, hf₂⟩ := hread
  have hcurrent := runFrom_of_running p.read_eq hf₂
  have hvalue := runFrom_readCurrent p.head_ok.2 hcurrent
  obtain ⟨hnone, hkeeps, hassigns⟩ := exec_assignGuard (M := M) p.guard_eq p.read_ok.2.2 f₂
  cases hk : op.keeps M f₂.world (f₂.regs p.cur) with
  | none =>
    refine .inl ⟨?_, ?_⟩
    · simp only [evaluation, htarget, hvalue, hcurrent, hk, Option.bind_eq_bind, Option.bind_some,
        Option.bind_none]
    · rw [hcode, completes_append hf₁, completes_append hf₂, completes, exec_append, hnone hk,
        exec_left]
  | some keep =>
    cases keep with
    | true =>
      obtain ⟨f₃, hf₃⟩ := hkeeps hk
      have hskip : Item.bind p.done ∉ p.value ++ p.store := fun hmem =>
        absurd (p.binds_value hmem) (Nat.not_le_of_lt p.guard_ok.2.2)
      refine .inr ⟨.kept (f₂.regs p.cur), f₃, ?_, ?_, fun v _ => ?_, fun v hv => by cases hv⟩
      · simp only [evaluation, htarget, hvalue, hcurrent, hk, Option.bind_eq_bind,
          Option.bind_some, if_true]
      · rw [hcode, completes_append hf₁, completes_append hf₂, ← List.append_assoc p.value,
          completes, exec_append, hf₃, exec_append, exec_seeking M hskip]
        simp only [exec, List.foldl_cons, List.foldl_nil, Item.exec, if_true]
      · have hseek : exec M (p.head ++ (p.read ++ p.guard)) (.running f) = .seeking p.done f₃ := by
          rw [exec_append, exec_append, hf₁, hf₂, hf₃]
        exact p.keeps_guard hseek rfl
    | false =>
      obtain ⟨f₃, hf₃⟩ := hassigns hk
      have hguard := runFrom_of_running p.guard_eq hf₃
      have heval : evaluation M op target right cx f =
          (right.runFrom M p.cx₃ f₃).bind fun res =>
            ((p.ref.store res.1).runFrom M res.2.1 res.2.2).bind fun _ =>
              some (.assigned (res.2.2.regs res.1)) := by
        simp only [evaluation, htarget, hvalue, hcurrent, hk, hguard, Option.bind_eq_bind,
          Option.bind_some, Bool.false_eq_true, if_false]
      have hrest : completes M code f = completes M (p.value ++ (p.store ++ [.bind p.done])) f₃ := by
        refine (congrArg (completes M · f) hcode).trans ?_
        rw [completes_append hf₁, completes_append hf₂, completes_append hf₃]
      rw [heval, hrest]
      rcases p.run_assigns (M := M) f₃ with ⟨cx₅, f₄, f₅, hright, hstore, hrun, hregs⟩ |
        ⟨hrun, hright | ⟨f₄, hright, hstore⟩⟩
      · rw [hright]
        simp only [Option.bind_some, hstore]
        exact .inr ⟨_, f₅, rfl, hrun, (fun v hv => by cases hv), fun v hv => by cases hv; exact hregs⟩
      · rw [hright]
        exact .inl ⟨rfl, hrun⟩
      · rw [hright]
        simp only [Option.bind_some, hstore]
        exact .inl ⟨rfl, hrun⟩

/-- What is asked of one evaluation: wherever the compiled code runs through, the
returned register holds the value of the expression. -/
def ValueHeld (M : Machine W) (op : LogicalOp) (target : Target W) (right : Expr W) (cx : FnCtx P)
    (f : Frame W) : Prop :=
  ∀ r cx' code f', expr (.logicalAssign op target right) cx = some (r, cx', code) →
    completes M code f = some f' →
      ∃ o, evaluation M op (targetRef target) (expr right) cx f = some o ∧ f'.regs r = o.value

/-- **The returned register holds the value** on the assigning path always, and on the
short-circuit path exactly when the register of the right-hand side, which that path
does not write, held the target's current value before. -/
theorem logicalAssign_value_iff (M : Machine W) (op : LogicalOp) (target : Target W)
    (right : Expr W) (cx : FnCtx P) (f : Frame W) :
    ValueHeld M op target right cx f ↔
      ∀ current, evaluation M op (targetRef target) (expr right) cx f = some (.kept current) →
        ∀ r cx' code, expr (.logicalAssign op target right) cx = some (r, cx', code) →
          f.regs r = current := by
  constructor
  · intro hheld current hkept r cx' code hemit
    obtain ⟨p⟩ := exists_parts (fresh_targetRef target) (fresh_expr right) hemit
    rcases p.run (M := M) f with ⟨hnone, -⟩ | ⟨o, f', ho, hrun, hstale, -⟩
    · rw [hkept] at hnone
      cases hnone
    · rw [hkept] at ho
      cases ho
      obtain ⟨o, ho, hvalue⟩ := hheld r cx' code f' hemit hrun
      rw [hkept] at ho
      cases ho
      rw [← hstale current rfl]
      exact hvalue
  · intro hstale r cx' code f' hemit hrun
    obtain ⟨p⟩ := exists_parts (fresh_targetRef target) (fresh_expr right) hemit
    rcases p.run (M := M) f with ⟨-, hnone⟩ | ⟨o, g, ho, hg, hkept, hassigned⟩
    · rw [hrun] at hnone
      cases hnone
    · rw [hrun] at hg
      cases hg
      refine ⟨o, ho, ?_⟩
      cases o with
      | kept current => rw [hkept current rfl, hstale current ho r cx' code hemit]; rfl
      | assigned v => exact hassigned v rfl

/-! ## §7 A kept value that is lost -/

/-- One register variable and no environment, `with` or class. -/
def localPlans : Plans where
  localsEnd := 2
  isStrict := false
  access _ := .reg 1
  access_reg _ r h := by cases h; decide
  symbolName _ := "x"
  tdzFlag _ := none
  tdzFlag_local _ _ := by simp
  constBinding _ := false
  thisSlot := none
  thisIsDerived := false
  superHome := none
  privateSlot _ := none
  withObjs := []

def plainMachine : Machine Unit where
  envRead _ _ _ := .undefined
  envWrite w _ _ _ := w
  toBoolean _ v := v != .smi 0 && v != .undefined
  apply _ _ w := some (.undefined, w)

/-- `x` is 0 in its register, the temporaries are `undefined` as at the start of a call. -/
def zeroFrame : Frame Unit := ⟨fun r => if r = 1 then .smi 0 else .undefined, ()⟩

/-- **The value of `x &&= 5` with `x` 0 is lost**: the register returned is `undefined`. -/
theorem not_valueHeld : ¬ ∀ (M : Machine Unit) (op : LogicalOp) (target : Target Unit)
    (right : Expr Unit) (cx : FnCtx localPlans) (f : Frame Unit),
      ValueHeld M op target right cx f := by
  intro h
  obtain ⟨o, ho, hvalue⟩ := h plainMachine .and (.ident ⟨"x", some 0⟩) (.literal (.smi 5))
    ⟨3, 0, by decide⟩ zeroFrame 4 ⟨5, 1, by decide⟩ _ _ rfl rfl
  have hkept : evaluation plainMachine .and (targetRef (P := localPlans) (.ident ⟨"x", some 0⟩))
      (expr (.literal (.smi 5))) ⟨3, 0, by decide⟩ zeroFrame = some (.kept (.smi 0)) := rfl
  rw [hkept] at ho
  cases ho
  exact absurd hvalue (by decide)

end V12.Expression
