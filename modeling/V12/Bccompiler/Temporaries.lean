/-
V12.Bccompiler.Temporaries — the discipline of the registers and labels of emitted
expressions.

Temporaries stay reserved until the statement ends: an emission hands out
registers upwards, its code writes none from the new top on, and the branches
and bindings of its code use its own labels. `fresh_expr`: the value of every
expression is in a temporary of its own emission.
-/
import V12.Bccompiler.Expression

namespace V12.Expression

open V12.Heap (JsValue)
open V12.Bytecode (BranchOp Opcode)

variable {P : Plans} {W α β : Type}
variable {f f' : Frame W} {n : Nat} {code : List (Item W)} {mode : Mode W} {cx : FnCtx P}
  {target : Emit P W Ref} {right : Emit P W Nat}

/-! ## §1 What code leaves alone -/

def Mode.frame? : Mode W → Option (Frame W)
  | .running f | .seeking _ f => some f
  | .left => none

/-- An item changes no register from `n` on. -/
def Item.Keeps (n : Nat) (item : Item W) : Prop :=
  ∀ (M : Machine W) (f : Frame W) f', (item.run M f).frame? = some f' →
    ∀ r, n ≤ r → f'.regs r = f.regs r

theorem write_regs_of_lt {dst r : Nat} (v : JsValue) (hdst : dst < n) (hr : n ≤ r) :
    (f.write dst v).regs r = f.regs r :=
  Function.update_of_ne (by omega) _ _

theorem exec_cons (M : Machine W) (item : Item W) (code : List (Item W)) (mode : Mode W) :
    exec M (item :: code) mode = exec M code (item.exec M mode) := rfl

theorem exec_append (M : Machine W) (code₁ code₂ : List (Item W)) (mode : Mode W) :
    exec M (code₁ ++ code₂) mode = exec M code₂ (exec M code₁ mode) := List.foldl_append

theorem exec_left (M : Machine W) (code : List (Item W)) : exec M code .left = .left := by
  induction code with
  | nil => rfl
  | cons item code ih => exact ih

theorem frame_exec_seeking (M : Machine W) (item : Item W) (label : Nat) (f : Frame W) :
    (item.exec M (.seeking label f)).frame? = some f := by
  cases item with
  | bind l =>
    simp only [Item.exec]
    split <;> rfl
  | _ => rfl

/-- Registers that no item changes are kept by the whole code, jumped over or run. -/
theorem exec_unchanged (M : Machine W) (S : Nat → Prop)
    (hcode : ∀ item ∈ code, ∀ g g', (item.run M g).frame? = some g' →
      ∀ r, S r → g'.regs r = g.regs r) (hf : mode.frame? = some f)
    (hf' : (exec M code mode).frame? = some f') (r : Nat) (hr : S r) :
    f'.regs r = f.regs r := by
  induction code generalizing mode f with
  | nil =>
    rw [show exec M [] mode = mode from rfl, hf] at hf'
    rw [Option.some.inj hf']
  | cons item code ih =>
    rw [exec_cons] at hf'
    have hrest := fun i hi => hcode i (List.mem_cons_of_mem _ hi)
    cases mode with
    | left => cases hf
    | seeking label g =>
      cases hf
      exact ih hrest (frame_exec_seeking M item label f) hf'
    | running g =>
      cases hf
      cases hmid : (item.exec M (.running f)).frame? with
      | none =>
        have hleft : item.exec M (.running f) = .left := by
          cases hmode : item.exec M (.running f) with
          | left => rfl
          | running g => rw [hmode] at hmid; cases hmid
          | seeking l g => rw [hmode] at hmid; cases hmid
        rw [hleft, exec_left] at hf'
        cases hf'
      | some g =>
        rw [ih hrest hmid hf']
        exact hcode item List.mem_cons_self f g hmid r hr

theorem exec_keeps (M : Machine W) (hcode : ∀ item ∈ code, item.Keeps n) (hf : mode.frame? = some f)
    (hf' : (exec M code mode).frame? = some f') (r : Nat) (hr : n ≤ r) :
    f'.regs r = f.regs r :=
  exec_unchanged M (n ≤ ·) (fun item hitem g g' hg => hcode item hitem M g g' hg) hf hf' r hr

/-- Code that does not bind the label is passed over. -/
theorem exec_seeking (M : Machine W) {label : Nat} (hcode : Item.bind label ∉ code) (f : Frame W) :
    exec M code (.seeking label f) = .seeking label f := by
  induction code with
  | nil => rfl
  | cons item code ih =>
    have hne : item.exec M (.seeking label f) = .seeking label f := by
      cases item with
      | bind l =>
        have hl : l ≠ label := fun h => hcode (by rw [h]; exact List.mem_cons_self)
        simp only [Item.exec, if_neg hl]
      | _ => rfl
    rw [exec_cons, hne]
    exact ih fun h => hcode (List.mem_cons_of_mem _ h)

/-- What is still sought behind a code was sought before it or is the target of one of its
branches. -/
theorem target_of_seeking (M : Machine W) {l : Nat} (h : exec M code mode = .seeking l f') :
    (∃ f, mode = .seeking l f) ∨ ∃ op cond, Item.branch op cond l ∈ code := by
  induction code generalizing mode with
  | nil => exact .inl ⟨f', h⟩
  | cons item code ih =>
    rcases ih h with ⟨f, hmode⟩ | ⟨op, cond, hmem⟩
    · cases mode with
      | left => cases hmode
      | seeking l₀ g =>
        cases item with
        | bind l₁ =>
          simp only [Item.exec] at hmode
          split at hmode
          case isTrue => cases hmode
          case isFalse => exact .inl ⟨f, hmode⟩
        | _ => exact .inl ⟨f, hmode⟩
      | running g =>
        cases item with
        | branch op cond target =>
          simp only [Item.exec, Item.run] at hmode
          split at hmode
          case isTrue =>
            cases hmode
            exact .inr ⟨op, cond, List.mem_cons_self⟩
          case isFalse => cases hmode
        | apply op dst args =>
          simp only [Item.exec, Item.run] at hmode
          repeat' split at hmode
          all_goals cases hmode
        | other run =>
          simp only [Item.exec, Item.run] at hmode
          split at hmode
          all_goals cases hmode
        | _ => cases hmode
    · exact .inr ⟨op, cond, List.mem_cons_of_mem _ hmem⟩

/-! ## §2 The discipline of emissions -/

/-- Counters only go up; the code writes no register from the new top on; it binds, and
branches to, labels from `base` on only. -/
structure Emitted (base : Nat) (cx cx' : FnCtx P) (code : List (Item W)) : Prop where
  temps : cx.tempTop ≤ cx'.tempTop
  labels : cx.labels ≤ cx'.labels
  keeps : ∀ item ∈ code, item.Keeps cx'.tempTop
  binds : ∀ l, Item.bind l ∈ code → base ≤ l
  targets : ∀ op cond l, Item.branch op cond l ∈ code → base ≤ l ∧ l < cx'.labels

theorem Item.Keeps.mono {m : Nat} {item : Item W} (h : item.Keeps n) (hnm : n ≤ m) :
    item.Keeps m :=
  fun M f f' hf' r hr => h M f f' hf' r (Nat.le_trans hnm hr)

/-- Emissions follow one another. -/
theorem Emitted.append {base : Nat} {cx₁ cx₂ : FnCtx P} {code₁ code₂ : List (Item W)}
    (h₁ : Emitted base cx cx₁ code₁) (h₂ : Emitted base cx₁ cx₂ code₂) :
    Emitted base cx cx₂ (code₁ ++ code₂) where
  temps := Nat.le_trans h₁.temps h₂.temps
  labels := Nat.le_trans h₁.labels h₂.labels
  keeps item hitem := by
    rcases List.mem_append.mp hitem with hmem | hmem
    · exact (h₁.keeps item hmem).mono h₂.temps
    · exact h₂.keeps item hmem
  binds l hl := by
    rcases List.mem_append.mp hl with hmem | hmem
    · exact h₁.binds l hmem
    · exact h₂.binds l hmem
  targets op cond l hl := by
    rcases List.mem_append.mp hl with hmem | hmem
    · obtain ⟨hbase, hlt⟩ := h₁.targets op cond l hmem
      exact ⟨hbase, Nat.lt_of_lt_of_le hlt h₂.labels⟩
    · exact h₂.targets op cond l hmem

/-- An emission keeps the discipline, and its result meets `Q`. -/
def Disciplined (base : Nat) (cx : FnCtx P) (m : Emit P W α) (Q : α → FnCtx P → Prop) : Prop :=
  ∀ a cx' code, m cx = some (a, cx', code) → Emitted base cx cx' code ∧ Q a cx'

/-- A sequence that compiles is the two parts, their code in order. -/
theorem bind_eq_some {m : Emit P W α} {k : α → Emit P W β} {cx' : FnCtx P} {b : β} :
    (m >>= k) cx = some (b, cx', code) ↔
      ∃ a cx₁ code₁ code₂, m cx = some (a, cx₁, code₁) ∧ k a cx₁ = some (b, cx', code₂) ∧
        code = code₁ ++ code₂ := by
  constructor
  · intro h
    simp only [bind] at h
    split at h
    case h_1 => cases h
    case h_2 a cx₁ code₁ hm =>
      split at h
      case h_1 => cases h
      case h_2 b' cx₂ code₂ hk =>
        cases h
        exact ⟨a, cx₁, code₁, code₂, hm, hk, rfl⟩
  · rintro ⟨a, cx₁, code₁, code₂, hm, hk, rfl⟩
    simp only [bind, hm, hk]

namespace Disciplined

variable {base : Nat} {cx : FnCtx P}

theorem pure {Q : α → FnCtx P → Prop} {a : α} (h : Q a cx) :
    Disciplined (W := W) base cx (pure a) Q := by
  rintro b cx' code hsome
  cases hsome
  exact ⟨⟨Nat.le_refl _, Nat.le_refl _, by simp, by simp, by simp⟩, h⟩

/-- **Sequencing**: each part is disciplined from where the one before it ends. -/
theorem bind {m : Emit P W α} {k : α → Emit P W β} {R : α → FnCtx P → Prop}
    {Q : β → FnCtx P → Prop} (hm : Disciplined base cx m R)
    (hk : ∀ a cx₁, cx.tempTop ≤ cx₁.tempTop → cx.labels ≤ cx₁.labels → R a cx₁ →
      Disciplined base cx₁ (k a) Q) : Disciplined base cx (m >>= k) Q := by
  intro b cx' code hsome
  obtain ⟨a, cx₁, code₁, code₂, hm₁, hk₁, rfl⟩ := bind_eq_some.mp hsome
  obtain ⟨hemitted, hR⟩ := hm a cx₁ code₁ hm₁
  obtain ⟨hemitted', hQ⟩ := hk a cx₁ hemitted.temps hemitted.labels hR b cx' code₂ hk₁
  exact ⟨hemitted.append hemitted', hQ⟩

theorem imp {m : Emit P W α} {R Q : α → FnCtx P → Prop} (hm : Disciplined base cx m R)
    (h : ∀ a cx', cx.tempTop ≤ cx'.tempTop → R a cx' → Q a cx') : Disciplined base cx m Q := by
  intro a cx' code hsome
  obtain ⟨hemitted, hR⟩ := hm a cx' code hsome
  exact ⟨hemitted, h a cx' hemitted.temps hR⟩

theorem err {Q : α → FnCtx P → Prop} : Disciplined (W := W) base cx Emit.err Q :=
  fun _ _ _ hsome => by cases hsome

/-- One item is disciplined if it keeps the registers below and jumps to labels given out. -/
theorem emit {item : Item W} (hkeeps : item.Keeps cx.tempTop)
    (hbind : ∀ l, item = .bind l → base ≤ l)
    (htarget : ∀ op cond l, item = .branch op cond l → base ≤ l ∧ l < cx.labels) :
    Disciplined base cx (emit item) fun _ _ => True := by
  rintro a cx' code hsome
  cases hsome
  refine ⟨⟨Nat.le_refl _, Nat.le_refl _, fun i hi => ?_, fun l hl => ?_, fun op cond l hl => ?_⟩,
    trivial⟩
  · rw [List.mem_singleton.mp hi]
    exact hkeeps
  · exact hbind l (List.mem_singleton.mp hl).symm
  · exact htarget op cond l (List.mem_singleton.mp hl).symm

end Disciplined

def Fresh (cx : FnCtx P) (r : Nat) (cx' : FnCtx P) : Prop := cx.tempTop ≤ r ∧ r < cx'.tempTop

/-! ## §3 Instructions -/

section Instructions

variable {base : Nat} {cx : FnCtx P}
variable {dst done : Nat}

theorem keeps_write {n : Nat} {item : Item W} (hdst : dst < n)
    (hrun : ∀ (M : Machine W) f f', (item.run M f).frame? = some f' →
      ∃ v w, f' = { f with world := w }.write dst v) : item.Keeps n := by
  intro M f f' hf' r hr
  obtain ⟨v, w, rfl⟩ := hrun M f f' hf'
  exact write_regs_of_lt v hdst hr

theorem disciplined_load (v : JsValue) (hdst : dst < cx.tempTop) :
    Disciplined (W := W) base cx (emit (.load dst v)) fun _ _ => True := by
  refine .emit (keeps_write hdst fun M f f' h => ?_) (fun l h => by cases h)
    (fun _ _ _ h => by cases h)
  cases h
  exact ⟨v, f.world, rfl⟩

theorem disciplined_move (src : Nat) (hdst : dst < cx.tempTop) :
    Disciplined (W := W) base cx (emit (.move dst src)) fun _ _ => True := by
  refine .emit (keeps_write hdst fun M f f' h => ?_) (fun l h => by cases h)
    (fun _ _ _ h => by cases h)
  cases h
  exact ⟨f.regs src, f.world, rfl⟩

theorem disciplined_getEnv (depth slot : Nat) (hdst : dst < cx.tempTop) :
    Disciplined (W := W) base cx (emit (.getEnv dst depth slot)) fun _ _ => True := by
  refine .emit (keeps_write hdst fun M f f' h => ?_) (fun l h => by cases h)
    (fun _ _ _ h => by cases h)
  cases h
  exact ⟨M.envRead f.world depth slot, f.world, rfl⟩

theorem disciplined_setEnv (depth slot src : Nat) :
    Disciplined (W := W) base cx (emit (.setEnv depth slot src)) fun _ _ => True := by
  refine .emit (fun M f f' h r hr => ?_) (fun l h => by cases h) (fun _ _ _ h => by cases h)
  cases h
  rfl

theorem disciplined_apply {dst : Option Nat} (op : Op) (args : List Nat)
    (hdst : ∀ d, dst = some d → d < cx.tempTop) :
    Disciplined (W := W) base cx (emit (.apply op dst args)) fun _ _ => True := by
  refine .emit (fun M f f' h r hr => ?_) (fun l h => by cases h) (fun _ _ _ h => by cases h)
  simp only [Item.run] at h
  split at h
  case h_1 => cases h
  case h_2 v w _ =>
    cases dst with
    | none =>
      cases h
      rfl
    | some d =>
      cases h
      exact write_regs_of_lt v (hdst d rfl) hr

theorem disciplined_throws (src : Nat) :
    Disciplined (W := W) base cx (emit (.throws src)) fun _ _ => True :=
  .emit (fun M f f' h => by cases h) (fun l h => by cases h) (fun _ _ _ h => by cases h)

theorem disciplined_branch {target : Nat} (op : BranchOp) (cond : Nat)
    (htarget : base ≤ target ∧ target < cx.labels) :
    Disciplined (W := W) base cx (emit (.branch op cond target)) fun _ _ => True := by
  refine .emit (fun M f f' h r hr => ?_) (fun l h => by cases h) (fun _ _ _ h => ?_)
  · simp only [Item.run] at h
    split at h
    all_goals
      cases h
      rfl
  · cases h
    exact htarget

theorem disciplined_bind {l : Nat} (hl : base ≤ l) :
    Disciplined (W := W) base cx (emit (.bind l)) fun _ _ => True := by
  refine .emit (fun M f f' h r hr => ?_) (fun l' h => ?_) (fun _ _ _ h => by cases h)
  · cases h
    rfl
  · cases h
    exact hl

/-- New temporaries lie above those in use. -/
theorem disciplined_newTemps (n : Nat) :
    Disciplined (W := W) base cx (newTemps n) fun r cx' =>
      r = cx.tempTop ∧ cx'.tempTop = cx.tempTop + n := by
  rintro a cx' code hsome
  unfold newTemps at hsome
  split at hsome
  case isTrue =>
    cases hsome
    exact ⟨⟨Nat.le_add_right _ _, Nat.le_refl _, by simp, by simp, by simp⟩, rfl, rfl⟩
  case isFalse => cases hsome

theorem disciplined_newTemp :
    Disciplined (W := W) base cx newTemp fun r cx' => Fresh cx r cx' :=
  (disciplined_newTemps 1).imp fun r cx' _ h => by
    unfold Fresh
    omega

theorem disciplined_label :
    Disciplined (W := W) base cx label fun l cx' => cx.labels ≤ l ∧ l < cx'.labels := by
  rintro a cx' code hsome
  cases hsome
  exact ⟨⟨Nat.le_refl _, Nat.le_succ _, by simp, by simp, by simp⟩, Nat.le_refl _,
    Nat.lt_succ_self _⟩

theorem disciplined_applyTo (op : Op) (args : List Nat) (hdst : dst < cx.tempTop) :
    Disciplined (W := W) base cx (emit (.apply op (some dst) args)) fun _ _ => True :=
  disciplined_apply op args fun d hd => by
    cases hd
    exact hdst

theorem disciplined_effect (op : Op) (args : List Nat) :
    Disciplined (W := W) base cx (emit (.apply op none args)) fun _ _ => True :=
  disciplined_apply op args fun d hd => by cases hd

theorem Fresh.mono {cx₁ cx₂ : FnCtx P} {r : Nat} (h : Fresh cx r cx₁)
    (hle : cx₁.tempTop ≤ cx₂.tempTop) : Fresh cx r cx₂ :=
  ⟨h.1, Nat.lt_of_lt_of_le h.2 hle⟩

theorem disciplined_returning {cx₀ : FnCtx P} {item : Item W} (hdst : Fresh cx₀ dst cx)
    (hemit : Disciplined base cx (emit item) fun _ _ => True) :
    Disciplined base cx (emit item >>= fun _ => pure dst) fun r cx' => Fresh cx₀ r cx' :=
  hemit.bind fun _ _ ht _ _ => .pure (hdst.mono ht)

theorem disciplined_loadStrKey (text : String) :
    Disciplined (W := W) base cx (loadStrKey text) fun r cx' => Fresh cx r cx' := by
  unfold loadStrKey
  refine disciplined_newTemp.bind fun key cx₁ _ _ hkey => ?_
  exact disciplined_returning hkey (disciplined_applyTo _ _ hkey.2)

/-! ## §4 Variables -/

theorem disciplined_readAccess (access : VarAccess) (hdst : dst < cx.tempTop) :
    Disciplined (W := W) base cx (readAccess access dst) fun _ _ => True := by
  cases access with
  | reg r => exact disciplined_move r hdst
  | env depth slot => exact disciplined_getEnv depth slot hdst
  | global name => exact disciplined_applyTo _ _ hdst

theorem disciplined_storeAccess (sym src : Nat) :
    Disciplined (W := W) base cx (storeAccess (P.access sym) src) fun _ _ => True := by
  cases haccess : P.access sym with
  | reg r =>
    have hr : r < cx.tempTop := Nat.lt_trans (P.access_reg sym r haccess) cx.above
    simp only [storeAccess]
    split
    case isTrue => exact .pure trivial
    case isFalse => exact disciplined_move src hr
  | env depth slot => exact disciplined_setEnv depth slot src
  | global name => exact disciplined_effect _ _

theorem disciplined_emitTdzThrow (name : String) :
    Disciplined (W := W) base cx (emitTdzThrow name) fun _ _ => True := by
  unfold emitTdzThrow
  refine (disciplined_newTemps 3).bind fun block cx₁ _ _ hblock => ?_
  refine (disciplined_applyTo _ _ (by omega)).bind fun _ cx₂ h₂ _ _ => ?_
  refine (disciplined_move _ (by omega)).bind fun _ cx₃ h₃ _ _ => ?_
  refine (disciplined_applyTo _ _ (by omega)).bind fun _ cx₄ h₄ _ _ => ?_
  refine disciplined_newTemp.bind fun err cx₅ _ _ herr => ?_
  refine (disciplined_applyTo _ _ herr.2).bind fun _ cx₆ h₆ _ _ => ?_
  exact disciplined_throws err

/-- The test of a binding that may be uninitialized, and the end of its guard. -/
theorem disciplined_tdzTest (sym : Nat) (hbase : base ≤ cx.labels) :
    Disciplined (W := W) base cx (tdzTest sym) fun res cx' =>
      ∀ l, res = some l → base ≤ l ∧ l < cx'.labels := by
  unfold tdzTest
  cases P.tdzFlag sym with
  | none => exact .pure fun l hl => by cases hl
  | some access =>
    refine disciplined_newTemp.bind fun flag cx₁ _ h₁ hflag => ?_
    refine (disciplined_readAccess access hflag.2).bind fun _ cx₂ _ h₂ _ => ?_
    refine disciplined_label.bind fun uninit cx₃ _ h₃ huninit => ?_
    refine (disciplined_branch _ _ (by omega)).bind fun _ cx₄ _ h₄ _ => .pure fun l hl => ?_
    cases hl
    omega

theorem disciplined_tdzGuardEnd (sym : Nat) {uninit : Nat} (hbase : base ≤ cx.labels)
    (huninit : base ≤ uninit) :
    Disciplined (W := W) base cx (tdzGuardEnd sym uninit) fun _ _ => True := by
  unfold tdzGuardEnd
  refine disciplined_label.bind fun cont cx₁ _ h₁ hcont => ?_
  refine (disciplined_branch _ _ (by omega)).bind fun _ cx₂ _ h₂ _ => ?_
  refine (disciplined_bind huninit).bind fun _ cx₃ _ h₃ _ => ?_
  refine (disciplined_emitTdzThrow _).bind fun _ cx₄ _ h₄ _ => ?_
  exact disciplined_bind (Nat.le_trans hbase hcont.1)

/-- A guarded reference is disciplined if the reference is. -/
theorem disciplined_guarded (sym : Nat) {reference : Emit P W Unit} (hbase : base ≤ cx.labels)
    (hreference : ∀ cx' : FnCtx P, cx.tempTop ≤ cx'.tempTop →
      Disciplined base cx' reference fun _ _ => True) :
    Disciplined base cx (guarded sym reference) fun _ _ => True := by
  unfold guarded
  refine (disciplined_tdzTest sym hbase).bind fun res cx₁ ht₁ hl₁ hres => ?_
  cases res with
  | none => exact hreference cx₁ ht₁
  | some uninit =>
    refine (hreference cx₁ ht₁).bind fun _ cx₂ _ hl₂ _ => ?_
    exact disciplined_tdzGuardEnd sym (Nat.le_trans hbase (Nat.le_trans hl₁ hl₂))
      (hres uninit rfl).1

theorem disciplined_readBindingInto (sym : Nat) (hbase : base ≤ cx.labels)
    (hdst : dst < cx.tempTop) :
    Disciplined (W := W) base cx (readBindingInto sym dst) fun _ _ => True :=
  disciplined_guarded sym hbase fun _ ht =>
    disciplined_readAccess _ (Nat.lt_of_lt_of_le hdst ht)

theorem disciplined_storeBindingReassign (sym src : Nat) (hbase : base ≤ cx.labels) :
    Disciplined (W := W) base cx (storeBindingReassign sym src) fun _ _ => True :=
  disciplined_guarded sym hbase fun _ _ => disciplined_storeAccess sym src

theorem disciplined_probeWith {key : Nat} (obj : Nat) (hdst : dst < cx.tempTop)
    (hdone : base ≤ done ∧ done < cx.labels) :
    Disciplined (W := W) base cx (probeWith key dst done obj) fun _ _ => True := by
  unfold probeWith
  refine disciplined_newTemp.bind fun hit cx₁ t₁ l₁ hhit => ?_
  refine (disciplined_applyTo _ _ hhit.2).bind fun _ cx₂ t₂ l₂ _ => ?_
  refine disciplined_label.bind fun miss cx₃ t₃ l₃ hmiss => ?_
  refine (disciplined_branch _ _ (by omega)).bind fun _ cx₄ t₄ l₄ _ => ?_
  refine (disciplined_applyTo _ _ (by omega)).bind fun _ cx₅ t₅ l₅ _ => ?_
  refine (disciplined_branch _ _ (by omega)).bind fun _ cx₆ t₆ l₆ _ => ?_
  exact disciplined_bind (by omega)

theorem disciplined_probes {key : Nat} (objs : List Nat) (hdst : dst < cx.tempTop)
    (hdone : base ≤ done ∧ done < cx.labels) :
    Disciplined (W := W) base cx (objs.forM (probeWith key dst done)) fun _ _ => True := by
  induction objs generalizing cx with
  | nil => exact .pure trivial
  | cons obj objs ih =>
    exact (disciplined_probeWith obj hdst hdone).bind fun _ cx₁ t₁ l₁ _ =>
      ih (by omega) (by omega)

/-- An identifier is read into a new temporary, through the `with` objects around it. -/
theorem disciplined_readIdentifier (id : Ident) (hbase : base ≤ cx.labels) :
    Disciplined (W := W) base cx (readIdentifier id) fun r cx' => Fresh cx r cx' := by
  have hprobe {dst : Nat} {cx₁ : FnCtx P} (hle : base ≤ cx₁.labels) (hdst : dst < cx₁.tempTop) :
      Disciplined (W := W) base cx₁ (emitWithProbe id.name dst) fun done _ =>
        ∀ l, done = some l → base ≤ l := by
    unfold emitWithProbe
    split
    case isTrue => exact .pure fun l hl => by cases hl
    case isFalse =>
      refine (disciplined_loadStrKey _).bind fun key cx₂ t₂ l₂ _ => ?_
      refine disciplined_label.bind fun done cx₃ t₃ l₃ hdone => ?_
      refine (disciplined_probes _ (by omega) (by omega)).bind fun _ cx₄ t₄ l₄ _ =>
        .pure fun l hl => ?_
      cases hl
      omega
  have hstatic {dst : Nat} {cx₁ : FnCtx P} (hle : base ≤ cx₁.labels) (hdst : dst < cx₁.tempTop) :
      Disciplined (W := W) base cx₁ (readIdentifierStatic id dst) fun _ _ => True := by
    unfold readIdentifierStatic
    cases id.symbol with
    | some sym => exact disciplined_readBindingInto sym hle hdst
    | none =>
      simp only
      split_ifs
      · exact disciplined_load _ hdst
      · exact disciplined_load _ hdst
      · exact disciplined_load _ hdst
      · exact disciplined_applyTo _ _ hdst
  unfold readIdentifier
  refine disciplined_newTemp.bind fun dst cx₁ t₁ l₁ hdst => ?_
  refine (hprobe (by omega) hdst.2).bind fun done cx₂ t₂ l₂ hdone => ?_
  refine (hstatic (by omega) (Nat.lt_of_lt_of_le hdst.2 t₂)).bind fun _ cx₃ t₃ l₃ _ => ?_
  refine Disciplined.bind (R := fun _ _ => True) ?_ fun _ cx₄ t₄ _ _ =>
    .pure (hdst.mono (by omega))
  cases done with
  | none => exact .pure trivial
  | some l => exact disciplined_bind (hdone l rfl)

/-! ## §5 References -/

theorem disciplined_emitCheckThis (dst : Nat) :
    Disciplined (W := W) base cx (emitCheckThis dst) fun _ _ => True := by
  unfold emitCheckThis
  split
  case isTrue => exact disciplined_effect _ _
  case isFalse => exact .pure trivial

theorem disciplined_readThis : Disciplined (W := W) base cx readThis fun r cx' => Fresh cx r cx' := by
  unfold readThis
  refine disciplined_newTemp.bind fun dst cx₁ _ _ hdst => ?_
  refine Disciplined.bind (R := fun _ _ => True) ?_ fun _ cx₂ t₂ _ _ => ?_
  · unfold thisItem
    cases P.thisSlot with
    | some slot => exact disciplined_getEnv _ _ hdst.2
    | none => exact disciplined_move _ hdst.2
  · exact (disciplined_emitCheckThis dst).bind fun _ _ t₃ _ _ => .pure (hdst.mono (by omega))

theorem disciplined_superExpr :
    Disciplined (W := W) base cx superExpr fun r cx' => Fresh cx r cx' := by
  have hproto {cx₁ : FnCtx P} {arg : Nat} (ht : cx.tempTop ≤ cx₁.tempTop) :
      Disciplined (W := W) base cx₁ (do
        let base ← newTemp
        emit (.apply (.opcode .getPrototype) (some base) [arg])
        pure base) fun r cx' => Fresh cx r cx' := by
    refine disciplined_newTemp.bind fun dst cx₂ _ _ hdst => ?_
    exact disciplined_returning ⟨Nat.le_trans ht hdst.1, hdst.2⟩ (disciplined_applyTo _ _ hdst.2)
  unfold superExpr
  cases P.superHome with
  | none => exact .err
  | some home =>
    cases home with
    | objectMethod => exact disciplined_readThis.bind fun _ _ ht _ _ => hproto ht
    | classHome depth slot =>
      refine disciplined_newTemp.bind fun home cx₁ t₁ _ hhome => ?_
      exact (disciplined_getEnv _ _ hhome.2).bind fun _ _ t₂ _ _ => hproto (by omega)

theorem disciplined_loadPrivateName (name : String) :
    Disciplined (W := W) base cx (loadPrivateName name) fun r cx' => Fresh cx r cx' := by
  unfold loadPrivateName
  cases P.privateSlot name with
  | none => exact .err
  | some slot =>
    obtain ⟨depth, slot⟩ := slot
    refine disciplined_newTemp.bind fun dst cx₁ _ _ hdst => ?_
    exact disciplined_returning hdst (disciplined_getEnv _ _ hdst.2)

theorem disciplined_emitMemberLoad (obj key : Nat) (isSuper : Bool) (hdst : dst < cx.tempTop) :
    Disciplined (W := W) base cx (emitMemberLoad dst obj key isSuper) fun _ _ => True := by
  cases isSuper with
  | true =>
    exact disciplined_readThis.bind fun _ _ ht _ _ =>
      disciplined_applyTo _ _ (Nat.lt_of_lt_of_le hdst ht)
  | false => exact disciplined_applyTo _ _ hdst

theorem disciplined_emitMemberStore (obj key value : Nat) (isSuper : Bool) :
    Disciplined (W := W) base cx (emitMemberStore obj key value isSuper) fun _ _ => True := by
  cases isSuper with
  | true => exact disciplined_readThis.bind fun _ _ _ _ _ => disciplined_effect _ _
  | false => exact disciplined_effect _ _

theorem disciplined_readInto (ref : Ref) {cur : Nat} (hbase : base ≤ cx.labels)
    (hcur : cur < cx.tempTop) :
    Disciplined (W := W) base cx (ref.readInto cur) fun _ _ => True := by
  cases ref with
  | id sym => exact disciplined_readBindingInto sym hbase hcur
  | global name => exact disciplined_applyTo _ _ hcur
  | member obj key isSuper => exact disciplined_emitMemberLoad obj key isSuper hcur

theorem disciplined_store (ref : Ref) (value : Nat) :
    Disciplined (W := W) base cx (ref.store value) fun _ _ => True := by
  cases ref with
  | id sym => exact disciplined_storeAccess sym value
  | global name => exact disciplined_effect _ _
  | member obj key isSuper => exact disciplined_emitMemberStore obj key value isSuper

/-- The value that a reference has now is read into a new temporary. -/
theorem disciplined_readCurrent (ref : Ref) (hbase : base ≤ cx.labels) :
    Disciplined (W := W) base cx (readCurrent ref) fun r cx' => Fresh cx r cx' := by
  unfold readCurrent
  refine disciplined_newTemp.bind fun cur cx₁ t₁ l₁ hcur => ?_
  exact (disciplined_readInto ref (by omega) hcur.2).bind fun _ cx₂ t₂ _ _ => .pure (hcur.mono t₂)

theorem disciplined_shortCircuit (op : LogicalOp) (cur : Nat)
    (hdone : base ≤ done ∧ done < cx.labels) :
    Disciplined (W := W) base cx (shortCircuit op cur done) fun _ _ => True := by
  cases op with
  | and => exact disciplined_branch _ _ hdone
  | or => exact disciplined_branch _ _ hdone
  | coalesce =>
    unfold shortCircuit nullishCmp
    refine Disciplined.bind (R := fun _ _ => True) ?_ fun cmp cx₁ _ l₁ _ =>
      disciplined_branch _ _ (by omega)
    refine disciplined_newTemp.bind fun null cx₁ _ _ hnull => ?_
    refine (disciplined_load _ hnull.2).bind fun _ cx₂ _ _ _ => ?_
    refine disciplined_newTemp.bind fun cmp cx₃ _ _ hcmp => ?_
    exact (disciplined_applyTo _ _ hcmp.2).bind fun _ _ _ _ _ => .pure trivial

theorem disciplined_assignGuard (op : LogicalOp) (cur : Nat) (hbase : base ≤ cx.labels) :
    Disciplined (W := W) base cx (assignGuard op cur) fun done cx' =>
      cx.labels ≤ done ∧ done < cx'.labels := by
  unfold assignGuard
  refine disciplined_label.bind fun done cx₁ _ l₁ hdone => ?_
  exact (disciplined_shortCircuit op cur (by omega)).bind fun _ cx₂ _ l₂ _ => .pure (by omega)

/-! ## §6 Expressions -/

/-- Every form of expression returns a temporary of its own. -/
def FreshExpr (e : Emit P W Nat) : Prop :=
  ∀ (base : Nat) (cx : FnCtx P), base ≤ cx.labels →
    Disciplined base cx e fun r cx' => Fresh cx r cx'

def Ref.Below (ref : Ref) (n : Nat) : Prop :=
  match ref with
  | .id _ | .global _ => True
  | .member obj key _ => obj < n ∧ key < n

def FreshTarget (t : Emit P W Ref) : Prop :=
  ∀ (base : Nat) (cx : FnCtx P), base ≤ cx.labels →
    Disciplined base cx t fun ref cx' => ref.Below cx'.tempTop

end Instructions

theorem FreshExpr.logical {lhs rhs : Emit P W Nat} (op : LogicalOp) (hl : FreshExpr lhs)
    (hr : FreshExpr rhs) : FreshExpr (logical op lhs rhs) := by
  intro base cx hbase
  unfold Expression.logical
  refine (hl base cx hbase).bind fun dst cx₁ t₁ l₁ hdst => ?_
  refine disciplined_label.bind fun done cx₂ t₂ l₂ hdone => ?_
  refine (disciplined_shortCircuit op dst (by omega)).bind fun _ cx₃ t₃ l₃ _ => ?_
  refine (hr base cx₃ (by omega)).bind fun r cx₄ t₄ l₄ _ => ?_
  have hfresh : Fresh cx dst cx₄ := hdst.mono (by omega)
  refine (disciplined_move r hfresh.2).bind fun _ cx₅ t₅ _ _ => ?_
  exact disciplined_returning (hfresh.mono t₅) (disciplined_bind (by omega))

theorem FreshExpr.logicalAssign (op : LogicalOp) (ht : FreshTarget target) (hr : FreshExpr right) :
    FreshExpr (logicalAssign op target right) := by
  intro base cx hbase
  unfold Expression.logicalAssign
  refine (ht base cx hbase).bind fun ref cx₁ t₁ l₁ _ => ?_
  refine (disciplined_readCurrent ref (by omega)).bind fun cur cx₂ t₂ l₂ _ => ?_
  refine (disciplined_assignGuard op cur (by omega)).bind fun done cx₃ t₃ l₃ hdone => ?_
  refine (hr base cx₃ (by omega)).bind fun rhs cx₄ t₄ l₄ hrhs => ?_
  refine (disciplined_store ref rhs).bind fun _ cx₅ t₅ _ _ => ?_
  have hfresh : Fresh cx rhs cx₅ := ⟨by have := hrhs.1; omega, Nat.lt_of_lt_of_le hrhs.2 t₅⟩
  exact disciplined_returning hfresh (disciplined_bind (by omega))

/-- An assignment evaluates its parts and stores through the reference they make. -/
theorem disciplined_storing {store : Nat → Ref → Emit P W Nat} (hr : FreshExpr right)
    (ht : FreshTarget target)
    (hid : ∀ rhs sym, store rhs (.id sym) = storeBindingReassign sym rhs >>= fun _ => pure rhs)
    (hglobal : ∀ rhs name,
      store rhs (.global name) = (Ref.global name).store rhs >>= fun _ => pure rhs)
    (hmember : ∀ rhs obj key isSuper, store rhs (.member obj key isSuper) =
      (Ref.member obj key isSuper).store rhs >>= fun _ => pure rhs) {base : Nat} {cx₁ : FnCtx P}
    (hbase : base ≤ cx₁.labels) (hle : cx.tempTop ≤ cx₁.tempTop) :
    Disciplined base cx₁ (right >>= fun rhs => target >>= fun ref => store rhs ref)
      (Fresh cx) := by
  refine (hr base cx₁ hbase).bind fun rhs cx₂ t₂ l₂ hrhs => ?_
  have hfresh : Fresh cx rhs cx₂ := ⟨Nat.le_trans hle hrhs.1, hrhs.2⟩
  refine (ht base cx₂ (by omega)).bind fun ref cx₃ t₃ l₃ _ => ?_
  cases ref with
  | id sym =>
    rw [hid]
    exact (disciplined_storeBindingReassign sym rhs (by omega)).bind fun _ _ t₄ _ _ =>
      .pure (hfresh.mono (by omega))
  | global name =>
    rw [hglobal]
    exact (disciplined_store (.global name) rhs).bind fun _ _ t₄ _ _ =>
      .pure (hfresh.mono (by omega))
  | member obj key isSuper =>
    rw [hmember]
    exact (disciplined_store (.member obj key isSuper) rhs).bind fun _ _ t₄ _ _ =>
      .pure (hfresh.mono (by omega))

theorem FreshExpr.assign (unbound : Option String) (hr : FreshExpr right)
    (ht : FreshTarget target) : FreshExpr (assign unbound right target) := by
  intro base cx hbase
  unfold Expression.assign
  cases unbound with
  | none =>
    exact disciplined_storing hr ht (fun _ _ => rfl) (fun _ _ => rfl) (fun _ _ _ _ => rfl) hbase
      (Nat.le_refl _)
  | some name =>
    simp only
    split
    case isTrue =>
      refine disciplined_newTemp.bind fun probe cx₁ t₁ l₁ hprobe => ?_
      refine (disciplined_applyTo _ _ hprobe.2).bind fun _ _ t₂ l₂ _ => ?_
      exact disciplined_storing hr ht (fun _ _ => rfl) (fun _ _ => rfl) (fun _ _ _ _ => rfl)
        (by omega) (by omega)
    case isFalse =>
      exact disciplined_storing hr ht (fun _ _ => rfl) (fun _ _ => rfl) (fun _ _ _ _ => rfl) hbase
        (Nat.le_refl _)

theorem freshTarget_member {obj key : Emit P W Nat} (isSuper : Bool) (hobj : FreshExpr obj)
    (hkey : FreshExpr key) : FreshTarget (do
      let o ← obj
      let k ← key
      pure (Ref.member o k isSuper)) := by
  intro base cx hbase
  refine (hobj base cx hbase).bind fun o cx₁ t₁ l₁ ho => ?_
  refine (hkey base cx₁ (by omega)).bind fun k cx₂ t₂ _ hk => .pure ⟨?_, hk.2⟩
  exact Nat.lt_of_lt_of_le ho.2 t₂

/-- Identifiers and members are targets that leave their parts in new temporaries. -/
theorem freshTarget_ident (id : Ident) : FreshTarget (W := W) (do
    checkAssignTarget (P := P) id
    pure (identRef id)) := by
  intro base cx hbase
  unfold checkAssignTarget
  have hident {cx' : FnCtx P} : (identRef id).Below cx'.tempTop := by
    unfold identRef
    cases id.symbol with
    | none => trivial
    | some sym => trivial
  refine Disciplined.bind (R := fun _ _ => True) ?_ fun _ _ _ _ _ => .pure hident
  split_ifs
  · exact .err
  · exact .err
  · exact .pure trivial

mutual

/-- **`expr` returns a temporary allocated by it.** -/
theorem fresh_expr : ∀ e : Expr W, FreshExpr (P := P) (expr e)
  | .literal v => fun base cx _ => by
    refine disciplined_newTemp.bind fun dst cx₁ _ _ hdst => ?_
    exact disciplined_returning hdst (disciplined_load v hdst.2)
  | .str text => fun _ _ _ => disciplined_loadStrKey text
  | .this => fun _ _ _ => disciplined_readThis
  | .superBase => fun _ _ _ => disciplined_superExpr
  | .ident id => fun _ _ hbase => disciplined_readIdentifier id hbase
  | .paren e => fresh_expr e
  | .comma first rest => fun base cx hbase => by
    refine (fresh_expr first base cx hbase).bind fun _ cx₁ t₁ l₁ _ => ?_
    exact (fresh_expr rest base cx₁ (by omega)).imp fun r _ _ hr => ⟨Nat.le_trans t₁ hr.1, hr.2⟩
  | .binary op lhs rhs => fun base cx hbase => by
    refine (fresh_expr lhs base cx hbase).bind fun l cx₁ t₁ l₁ _ => ?_
    refine (fresh_expr rhs base cx₁ (by omega)).bind fun r cx₂ t₂ _ _ => ?_
    refine disciplined_newTemp.bind fun dst cx₃ _ _ hdst => ?_
    have hfresh : Fresh cx dst cx₃ := ⟨by have := hdst.1; omega, hdst.2⟩
    exact disciplined_returning hfresh (disciplined_applyTo _ _ hdst.2)
  | .logical op lhs rhs => .logical op (fresh_expr lhs) (fresh_expr rhs)
  | .conditional test consequent alternate => fun base cx hbase => by
    refine (fresh_expr test base cx hbase).bind fun cond cx₁ t₁ l₁ _ => ?_
    refine disciplined_newTemp.bind fun dst cx₂ t₂ l₂ hdst => ?_
    refine disciplined_label.bind fun elseL cx₃ t₃ l₃ helse => ?_
    refine disciplined_label.bind fun endL cx₄ t₄ l₄ hend => ?_
    refine (disciplined_branch _ _ (by omega)).bind fun _ cx₅ t₅ l₅ _ => ?_
    refine (fresh_expr consequent base cx₅ (by omega)).bind fun thenR cx₆ t₆ l₆ _ => ?_
    refine (disciplined_move _ (by have := hdst.2; omega)).bind fun _ cx₇ t₇ l₇ _ => ?_
    refine (disciplined_branch _ _ (by omega)).bind fun _ cx₈ t₈ l₈ _ => ?_
    refine (disciplined_bind (by omega)).bind fun _ cx₉ t₉ l₉ _ => ?_
    refine (fresh_expr alternate base cx₉ (by omega)).bind fun elseR cx₁₀ t₁₀ l₁₀ _ => ?_
    refine (disciplined_move _ (by have := hdst.2; omega)).bind fun _ cx₁₁ t₁₁ _ _ => ?_
    have hfresh : Fresh cx dst cx₁₁ := ⟨Nat.le_trans t₁ hdst.1, by have := hdst.2; omega⟩
    exact disciplined_returning hfresh (disciplined_bind (by omega))
  | .member obj name => fun base cx hbase => by
    refine (fresh_expr obj base cx hbase).bind fun o cx₁ t₁ _ _ => ?_
    refine (disciplined_loadStrKey name).bind fun key cx₂ t₂ _ _ => ?_
    refine disciplined_newTemp.bind fun dst cx₃ _ _ hdst => ?_
    refine (disciplined_emitMemberLoad o key _ hdst.2).bind fun _ _ t₄ _ _ => .pure ?_
    exact Fresh.mono ⟨by have := hdst.1; omega, hdst.2⟩ t₄
  | .computed obj key => fun base cx hbase => by
    refine (fresh_expr key base cx hbase).bind fun k cx₁ t₁ l₁ _ => ?_
    refine (fresh_expr obj base cx₁ (by omega)).bind fun o cx₂ t₂ _ _ => ?_
    refine disciplined_newTemp.bind fun dst cx₃ _ _ hdst => ?_
    refine (disciplined_emitMemberLoad o k _ hdst.2).bind fun _ _ t₄ _ _ => .pure ?_
    exact Fresh.mono ⟨by have := hdst.1; omega, hdst.2⟩ t₄
  | .privateField obj name => fun base cx hbase => by
    refine (fresh_expr obj base cx hbase).bind fun o cx₁ t₁ _ _ => ?_
    refine (disciplined_loadPrivateName name).bind fun key cx₂ t₂ _ _ => ?_
    refine disciplined_newTemp.bind fun dst cx₃ _ _ hdst => ?_
    have hfresh : Fresh cx dst cx₃ := ⟨by have := hdst.1; omega, hdst.2⟩
    exact disciplined_returning hfresh (disciplined_applyTo _ _ hdst.2)
  | .assign target right => .assign _ (fresh_expr right) (fresh_targetRef target)
  | .logicalAssign op target right => .logicalAssign op (fresh_targetRef target) (fresh_expr right)
  | .other form => fun base cx _ => by
    refine (disciplined_newTemps form.temps).bind fun b cx₁ _ _ hb => ?_
    have hlt := form.result_lt
    have hfresh : Fresh cx (b + form.result) cx₁ := ⟨by omega, by omega⟩
    refine disciplined_returning hfresh (.emit (fun M f f' h r hr => ?_) (fun l h => by cases h)
      (fun _ _ _ h => by cases h))
    simp only [Item.run] at h
    split at h
    case h_1 => cases h
    case h_2 hrun =>
      cases h
      exact form.keeps b f f' hrun r (by omega)

theorem fresh_targetRef : ∀ t : Target W, FreshTarget (P := P) (targetRef t)
  | .ident id => freshTarget_ident id
  | .member obj name =>
    freshTarget_member _ (fresh_expr obj) fun _ _ _ => disciplined_loadStrKey name
  | .computed obj key => fun base cx hbase => by
    refine (fresh_expr key base cx hbase).bind fun k cx₁ t₁ l₁ hk => ?_
    refine (fresh_expr obj base cx₁ (by omega)).bind fun o cx₂ t₂ _ ho => .pure ⟨ho.2, ?_⟩
    exact Nat.lt_of_lt_of_le hk.2 t₂
  | .privateField obj name =>
    freshTarget_member _ (fresh_expr obj) fun _ _ _ => disciplined_loadPrivateName name

end

end V12.Expression
