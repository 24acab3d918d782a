/-
V12.Bccompiler.Sequencing — runs of emissions one after the other.

Under the discipline the code of an emission binds none of the labels of the
code before it, so a run that leaves a part at a branch cannot come back in a
later one. `runFrom_bind_eq`: a sequence runs as its parts do.
-/
import V12.Bccompiler.LogicalAssign

namespace V12.Expression

open V12.Heap (JsValue)
open V12.Bytecode (BranchOp Opcode)

variable {P : Plans} {W α β : Type}
variable {m : Emit P W α} {cx cx' : FnCtx P}

/-! ## §1 Sequences -/

/-- **A sequence runs as its parts do.** -/
theorem runFrom_bind_eq (M : Machine W) {k : α → Emit P W β} {R : α → FnCtx P → Prop}
    (hm : Disciplined cx.labels cx m R) (hk : ∀ a cx₁, cx.tempTop ≤ cx₁.tempTop → R a cx₁ →
      Disciplined cx₁.labels cx₁ (k a) fun _ _ => True) (f : Frame W) :
    (m >>= k).runFrom M cx f =
      (m.runFrom M cx f).bind fun r => (k r.1).runFrom M r.2.1 r.2.2 := by
  cases hmcx : m cx with
  | none => simp only [Emit.runFrom, bind, hmcx, Option.bind_none]
  | some res =>
    obtain ⟨a, cx₁, code₁⟩ := res
    obtain ⟨hemitted, hR⟩ := hm a cx₁ code₁ hmcx
    have hwhole : (m >>= k) cx = (k a cx₁).map fun r => (r.1, r.2.1, code₁ ++ r.2.2) := by
      simp only [bind, hmcx]
      cases k a cx₁ with
      | none => rfl
      | some res => rfl
    have hpart : m.runFrom M cx f = (completes M code₁ f).map fun f' => (a, cx₁, f') := by
      simp only [Emit.runFrom, hmcx]
    cases hkcx : k a cx₁ with
    | none =>
      have hrest (g : Frame W) : (k a).runFrom M cx₁ g = none := by simp only [Emit.runFrom, hkcx]
      rw [hpart, Emit.runFrom, hwhole, hkcx]
      cases completes M code₁ f with
      | none => rfl
      | some g => exact (hrest g).symm
    | some res =>
      obtain ⟨b, cx₂, code₂⟩ := res
      have hlabels := (hk a cx₁ hemitted.temps hR b cx₂ code₂ hkcx).1
      have hrest (g : Frame W) :
          (k a).runFrom M cx₁ g = (completes M code₂ g).map fun f' => (b, cx₂, f') := by
        simp only [Emit.runFrom, hkcx]
      rw [hpart, Emit.runFrom, hwhole, hkcx]
      simp only [Option.map_some]
      by_cases hrun : ∃ g, exec M code₁ (.running f) = .running g
      · obtain ⟨g, hg⟩ := hrun
        have hcompletes : completes M code₁ f = some g := by rw [completes, hg]
        rw [hcompletes, completes_append hg]
        exact (hrest g).symm
      · have hne : ∀ g, exec M code₁ (.running f) ≠ .running g := fun g hg => hrun ⟨g, hg⟩
        have hnone : completes M code₁ f = none := by
          unfold completes
          split
          case h_1 g hg => exact absurd hg (hne g)
          case h_2 => rfl
          case h_3 => rfl
        rw [hnone, completes_eq_none (fun op cond l hl => (hemitted.targets op cond l hl).2)
          hlabels.binds hne]
        rfl

theorem exists_of_runFrom {M : Machine W} {f f' : Frame W} {a : α}
    (h : m.runFrom M cx f = some (a, cx', f')) : ∃ code, m cx = some (a, cx', code) := by
  obtain ⟨code, hcode, -⟩ := runFrom_eq_some.mp h
  exact ⟨code, hcode⟩

theorem Disciplined.of_runFrom {M : Machine W} {base : Nat} {Q : α → FnCtx P → Prop}
    (hm : Disciplined base cx m Q) {f f' : Frame W} {a : α}
    (h : m.runFrom M cx f = some (a, cx', f')) :
    cx.tempTop ≤ cx'.tempTop ∧ cx.labels ≤ cx'.labels ∧ Q a cx' := by
  obtain ⟨code, hcode⟩ := exists_of_runFrom h
  obtain ⟨hemitted, hQ⟩ := hm a cx' code hcode
  exact ⟨hemitted.temps, hemitted.labels, hQ⟩

/-! ## §2 Single instructions -/

theorem runFrom_emit_eq (M : Machine W) (item : Item W) (cx : FnCtx P) (f : Frame W) :
    (emit item : Emit P W Unit).runFrom M cx f =
      match item.run M f with
      | .running g => some ((), cx, g)
      | .seeking _ _ | .left => none := by
  show Option.map _ (completes M [item] f) = _
  have hexec : exec M [item] (.running f) = item.run M f := rfl
  unfold completes
  rw [hexec]
  cases item.run M f with
  | running g => rfl
  | seeking l g => rfl
  | left => rfl

theorem runFrom_move_eq (M : Machine W) (dst src : Nat) (cx : FnCtx P) (f : Frame W) :
    (emit (.move dst src) : Emit P W Unit).runFrom M cx f =
      some ((), cx, f.write dst (f.regs src)) := rfl

theorem runFrom_applyTo_eq (M : Machine W) (op : Op) (dst : Nat) (args : List Nat) (cx : FnCtx P)
    (f : Frame W) :
    (emit (.apply op (some dst) args) : Emit P W Unit).runFrom M cx f =
      (M.apply op (args.map f.regs) f.world).map fun r =>
        ((), cx, { f with world := r.2 }.write dst r.1) := by
  rw [runFrom_emit_eq]
  simp only [Item.run]
  cases M.apply op (args.map f.regs) f.world with
  | none => rfl
  | some r => rfl

theorem newTemps_eq_some {n r : Nat} {code : List (Item W)}
    (h : (newTemps n : Emit P W Nat) cx = some (r, cx', code)) :
    r = cx.tempTop ∧ cx'.tempTop = cx.tempTop + n ∧ cx'.labels = cx.labels ∧ code = [] := by
  unfold newTemps at h
  split at h
  case isTrue =>
    cases h
    exact ⟨rfl, rfl, rfl, rfl⟩
  case isFalse => cases h

end V12.Expression
