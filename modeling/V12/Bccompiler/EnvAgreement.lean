/-
V12.Bccompiler.EnvAgreement — the environment the compiler assumed is the
environment the frame has.

Three places break it. `unwind` (`v12-interp/src/call_setup.rs`) delivers an
exception and leaves `frame.env` where the exception was raised; a finalizer
copied to an exit runs before `emit_per_iteration_pops`; and the depth of an
access counts the class scopes on the chain (`env_bias`) but not the environments
of iterations, so one that goes through such an environment to a parent comes out
too early. Away from the first two the frame has exactly the environments that
were entered (§3), and away from the third those are the ones the compiler
assumed, as far as the code reaches (§4).
-/
import V12.Bccompiler.Exec
import V12.Interp.Env

namespace V12.Bccompiler

open V12.Interp

variable {loops : List LoopCtx} {depth : Nat} {finallies rest : List FinallyCtx} {c : Emitted}
  {ds : List Nat} {A left : List Env} {evs : List Event} {o : Outcome}

/-! ## §1 What the emitter keeps of the finalizer stack -/

theorem bind_pair {α β γ : Type} {x : Option (α × β)} {f : α × β → Option γ} {r : γ}
    (h : x.bind f = some r) : ∃ a b, x = some (a, b) ∧ f (a, b) = some r := by
  obtain ⟨⟨a, b⟩, hx, hf⟩ := Option.bind_eq_some_iff.mp h
  exact ⟨a, b, hx, hf⟩

theorem runFinallyCopies_suffix {untilLen : Nat}
    (h : runFinallyCopies loops depth finallies untilLen = some (c, rest)) :
    rest <:+ finallies := by
  induction finallies generalizing c with
  | nil =>
    simp only [runFinallyCopies, Option.some.injEq, Prod.mk.injEq] at h
    exact h.2 ▸ List.suffix_rfl
  | cons ctx finallies ih =>
    rw [runFinallyCopies] at h
    split at h
    · obtain ⟨c₁, -, h⟩ := Option.bind_eq_some_iff.mp h
      obtain ⟨cs, rest', hrest, ⟨⟩⟩ := bind_pair h
      exact (ih hrest).trans (List.suffix_cons _ _)
    · simp only [Option.some.injEq, Prod.mk.injEq] at h
      exact h.2 ▸ List.suffix_rfl

theorem tail_suffix_of_cons {α : Type} {x : α} {xs ys : List α} (h : ys <:+ x :: xs) :
    ys.tail <:+ xs := by
  rcases List.suffix_cons_iff.mp h with rfl | h
  · exact List.suffix_rfl
  · exact (List.tail_suffix ys).trans h

theorem jumpOut_eq_some {label : Option Nat} {isContinue : Bool}
    (h : jumpOut label isContinue loops finallies depth = some (c, rest)) :
    ∃ pos ctx copies closes, loops.findIdx? (LoopCtx.matches label isContinue) = some pos ∧
      loops[pos]? = some ctx ∧ (isContinue = true → ctx.continues = true) ∧
      runFinallyCopies loops depth finallies ctx.finallyBase = some (copies, rest) ∧
      closes = closesOf (loops.take (if isContinue then pos else pos + 1)) ∧
      c = .exit copies closes (popsOf (loops.take (pos + 1))) pos isContinue := by
  simp only [jumpOut, Option.bind_eq_bind, Option.bind_eq_some_iff] at h
  obtain ⟨pos, hpos, ctx, hctx, h⟩ := h
  split at h
  · cases h
  · rename_i hguard
    simp only [Option.bind_eq_some_iff] at h
    obtain ⟨⟨copies, rest'⟩, hcopies, heq⟩ := h
    simp only [pure, Option.some.injEq, Prod.mk.injEq] at heq
    obtain ⟨rfl, rfl⟩ := heq
    refine ⟨pos, ctx, copies, _, hpos, hctx, fun hc => ?_, hcopies, rfl, rfl⟩
    simpa [hc] using hguard

theorem emit_suffix {s : Stmt} (h : emit s loops finallies depth = some (c, rest)) :
    rest <:+ finallies := by
  induction s generalizing loops finallies rest depth c with
  | empty | op | classScope | throwOp =>
    simp only [emit, Option.some.injEq, Prod.mk.injEq] at h
    exact h.2 ▸ List.suffix_rfl
  | seq s t ihs iht | ifElse _ s t ihs iht | tryCatch s t ihs iht =>
    obtain ⟨_, _, hs, h⟩ := bind_pair h
    obtain ⟨_, _, ht, ⟨⟩⟩ := bind_pair h
    exact (iht ht).trans (ihs hs)
  | whileLoop _ _ body ih | doWhile _ body _ ih | forLoop _ _ _ _ body ih
  | forEach _ _ _ _ body ih | labeled _ body ih | switch _ _ body ih =>
    obtain ⟨_, _, hbody, ⟨⟩⟩ := bind_pair h
    exact ih hbody
  | breakTo | continueTo =>
    obtain ⟨_, _, _, _, -, -, -, hcopies, -, -⟩ := jumpOut_eq_some h
    exact runFinallyCopies_suffix hcopies
  | ret =>
    obtain ⟨_, _, hcopies, ⟨⟩⟩ := bind_pair h
    exact runFinallyCopies_suffix hcopies
  | yieldOp =>
    obtain ⟨_, -, ⟨⟩⟩ := Option.bind_eq_some_iff.mp h
    exact List.suffix_rfl
  | tryFinally body fin ihbody _ =>
    obtain ⟨_, _, hbody, h⟩ := bind_pair h
    obtain ⟨_, -, ⟨⟩⟩ := Option.bind_eq_some_iff.mp h
    exact tail_suffix_of_cons (ihbody hbody)
  | tryCatchFinally body handler fin ihbody ihhandler _ =>
    obtain ⟨_, _, hbody, h⟩ := bind_pair h
    obtain ⟨_, _, hhandler, h⟩ := bind_pair h
    obtain ⟨_, -, ⟨⟩⟩ := Option.bind_eq_some_iff.mp h
    exact tail_suffix_of_cons ((ihhandler hhandler).trans (ihbody hbody))

/-! ## §2 Emitted code names the environments around it -/

def depthsOf : List LoopCtx → Nat → List Nat
  | [], _ => []
  | ctx :: loops, depth =>
    let outer := if ctx.perIter then depth - 1 else depth
    outer :: depthsOf loops outer

/-- Code at environment depth `d`, with jump targets at depths `ds`: a jump pops
down to its target, a copy belongs to a `try` at its depth or below. -/
def Emitted.Scoped : Emitted → List Nat → Nat → Prop
  | .done, _, _ | .instr _, _, _ | .throwOp _, _, _ => True
  | .scope _ c, ds, d => c.Scoped ds (d + 1)
  | .seq c e, ds, d | .ifElse _ c e, ds, d => c.Scoped ds d ∧ e.Scoped ds d
  | .loop _ _ c _ _, ds, d | .region c, ds, d | .switch _ c, ds, d => c.Scoped (d :: ds) d
  | .closing c, ds, d | .ret _ c _, ds, d | .suspend _ c, ds, d => c.Scoped ds d
  | .exit copies _ pops pos _, ds, d =>
    copies.Scoped ds d ∧ ∃ target, ds[pos]? = some target ∧ d = target + pops
  | .copy depth c, ds, d => depth ≤ d ∧ c.Scoped ds d
  | .catching c h, ds, d | .finalizing c h, ds, d => c.Scoped ds d ∧ h.Scoped ds d

/-- Wherever the finalizer is copied to, the copy is scoped there. -/
structure FinallyCtx.Scoped (ctx : FinallyCtx) (depth : Nat) : Prop where
  outside : ctx.depth ≤ depth
  body : ∀ loops d c, popsOf loops ≤ d → ctx.body loops d = some c → c.Scoped (depthsOf loops d) d

theorem FinallyCtx.Scoped.mono {ctx : FinallyCtx} {depth' : Nat} (h : ctx.Scoped depth)
    (hle : depth ≤ depth') : ctx.Scoped depth' := 
  ⟨Nat.le_trans h.outside hle, h.body⟩

theorem depthsOf_target {pos : Nat} (hpops : popsOf loops ≤ depth) (hpos : pos < loops.length) :
    ∃ target, (depthsOf loops depth)[pos]? = some target ∧
      depth = target + popsOf (loops.take (pos + 1)) := by
  induction loops generalizing depth pos with
  | nil => cases hpos
  | cons ctx loops ih =>
    simp only [popsOf, List.countP_cons] at hpops
    cases pos with
    | zero =>
      refine ⟨_, rfl, ?_⟩
      simp only [popsOf, List.take_succ_cons, List.take_zero, List.countP_cons, List.countP_nil]
      split <;> simp_all
      omega
    | succ pos =>
      have hrest : popsOf loops ≤ if ctx.perIter then depth - 1 else depth := by
        unfold popsOf
        split <;> simp_all
        omega
      obtain ⟨target, htarget, heq⟩ := ih hrest (Nat.lt_of_succ_lt_succ hpos)
      refine ⟨target, htarget, ?_⟩
      simp only [popsOf, List.take_succ_cons, List.countP_cons] at heq ⊢
      split <;> simp_all
      omega

theorem depthsOf_body {ctx : LoopCtx} :
    depthsOf (ctx :: loops) (bodyDepth ctx.perIter depth) = depth :: depthsOf loops depth := by
  simp only [depthsOf, bodyDepth]
  split <;> rfl

theorem popsOf_body {ctx : LoopCtx} (h : popsOf loops ≤ depth) :
    popsOf (ctx :: loops) ≤ bodyDepth ctx.perIter depth := by
  simp only [popsOf, List.countP_cons, bodyDepth] at h ⊢
  split <;> omega

theorem le_bodyDepth (perIter : Bool) (depth : Nat) : depth ≤ bodyDepth perIter depth := by
  unfold bodyDepth
  split <;> omega

theorem scoped_iteration {perIter : Bool} (h : c.Scoped ds (bodyDepth perIter depth)) :
    (iteration perIter c).Scoped ds depth := by
  unfold iteration bodyDepth at *
  split <;> simp_all [Emitted.Scoped]

theorem runFinallyCopies_scoped {untilLen : Nat} (hpops : popsOf loops ≤ depth)
    (hfin : ∀ ctx ∈ finallies, ctx.Scoped depth)
    (h : runFinallyCopies loops depth finallies untilLen = some (c, rest)) :
    c.Scoped (depthsOf loops depth) depth := by
  induction finallies generalizing c rest with
  | nil =>
    simp only [runFinallyCopies, Option.some.injEq, Prod.mk.injEq] at h
    obtain ⟨rfl, -⟩ := h
    trivial
  | cons ctx finallies ih =>
    rw [runFinallyCopies] at h
    split at h
    · obtain ⟨c₁, hc₁, h⟩ := Option.bind_eq_some_iff.mp h
      obtain ⟨cs, rest', hrest, ⟨⟩⟩ := bind_pair h
      have hctx := hfin ctx List.mem_cons_self
      have hcs := ih (fun f hf => hfin f (List.mem_cons_of_mem _ hf)) hrest
      exact ⟨⟨hctx.outside, hctx.body loops depth c₁ hpops hc₁⟩, hcs⟩
    · simp only [Option.some.injEq, Prod.mk.injEq] at h
      obtain ⟨rfl, -⟩ := h
      trivial

theorem jumpOut_scoped {label : Option Nat} {isContinue : Bool} (hpops : popsOf loops ≤ depth)
    (hfin : ∀ ctx ∈ finallies, ctx.Scoped depth)
    (h : jumpOut label isContinue loops finallies depth = some (c, rest)) :
    c.Scoped (depthsOf loops depth) depth := by
  obtain ⟨pos, ctx, copies, closes, -, hctx, -, hcopies, -, rfl⟩ := jumpOut_eq_some h
  have hpos : pos < loops.length := (List.getElem?_eq_some_iff.mp hctx).1
  exact ⟨runFinallyCopies_scoped hpops hfin hcopies, depthsOf_target hpops hpos⟩

theorem scoped_finally {fin : Stmt}
    (hemit : ∀ loops d c rest, popsOf loops ≤ d → emit fin loops [] d = some (c, rest) →
      c.Scoped (depthsOf loops d) d) (hfin : ∀ ctx ∈ finallies, ctx.Scoped depth) :
    ∀ ctx ∈ ⟨depth, fun loops d => (emit fin loops [] d).map Prod.fst⟩ :: finallies,
      FinallyCtx.Scoped ctx depth := by
  intro ctx hctx
  rcases List.mem_cons.mp hctx with rfl | hctx
  · refine ⟨Nat.le_refl _, fun loops d c hle hc => ?_⟩
    simp only [Option.map_eq_some_iff, Prod.exists, exists_and_right, exists_eq_right] at hc
    obtain ⟨rest, hc⟩ := hc
    exact hemit loops d c rest hle hc
  · exact hfin ctx hctx

/-- **The code of every statement is scoped**, whatever exits and finalizers it has. -/
theorem emit_scoped {s : Stmt} (hpops : popsOf loops ≤ depth)
    (hfin : ∀ ctx ∈ finallies, ctx.Scoped depth)
    (h : emit s loops finallies depth = some (c, rest)) :
    c.Scoped (depthsOf loops depth) depth := by
  induction s generalizing loops finallies rest depth c with
  | empty | op | classScope | throwOp =>
    simp only [emit, Option.some.injEq, Prod.mk.injEq] at h
    obtain ⟨rfl, -⟩ := h
    trivial
  | seq s t ihs iht | ifElse _ s t ihs iht | tryCatch s t ihs iht =>
    obtain ⟨_, _, hs, h⟩ := bind_pair h
    obtain ⟨_, _, ht, ⟨⟩⟩ := bind_pair h
    exact ⟨ihs hpops hfin hs, iht hpops (fun ctx hctx => hfin ctx ((emit_suffix hs).mem hctx)) ht⟩
  | whileLoop _ _ body ih | doWhile _ body _ ih | labeled _ body ih | switch _ _ body ih =>
    obtain ⟨_, _, hbody, ⟨⟩⟩ := bind_pair h
    have hc := ih (by simpa [popsOf] using hpops) hfin hbody
    exact hc
  | forLoop _ perIter _ _ body ih =>
    obtain ⟨_, _, hbody, ⟨⟩⟩ := bind_pair h
    have hc := ih (popsOf_body hpops)
      (fun ctx hctx => (hfin ctx hctx).mono (le_bodyDepth perIter depth)) hbody
    rw [depthsOf_body] at hc
    exact scoped_iteration hc
  | forEach _ perIter closes _ body ih =>
    obtain ⟨_, _, hbody, ⟨⟩⟩ := bind_pair h
    have hc := ih (popsOf_body hpops)
      (fun ctx hctx => (hfin ctx hctx).mono (le_bodyDepth perIter depth)) hbody
    rw [depthsOf_body] at hc
    split
    · exact scoped_iteration hc
    · exact scoped_iteration hc
  | breakTo | continueTo => exact jumpOut_scoped hpops hfin h
  | ret =>
    obtain ⟨_, _, hcopies, ⟨⟩⟩ := bind_pair h
    have hc := runFinallyCopies_scoped hpops hfin hcopies
    exact hc
  | yieldOp =>
    obtain ⟨_, hyield, ⟨⟩⟩ := Option.bind_eq_some_iff.mp h
    obtain ⟨⟨_, _⟩, hcopies, rfl⟩ := Option.map_eq_some_iff.mp hyield
    have hc := runFinallyCopies_scoped hpops hfin hcopies
    exact hc
  | tryFinally body fin ihbody ihfin =>
    obtain ⟨_, _, hbody, h⟩ := bind_pair h
    obtain ⟨_, hcopy, ⟨⟩⟩ := Option.bind_eq_some_iff.mp h
    obtain ⟨⟨_, _⟩, hf, rfl⟩ := Option.map_eq_some_iff.mp hcopy
    have hfins := scoped_finally (fun loops d c rest hle hf => ihfin hle (by simp) hf) hfin
    exact ⟨ihbody hpops hfins hbody, ihfin hpops (by simp) hf⟩
  | tryCatchFinally body handler fin ihbody ihhandler ihfin =>
    obtain ⟨_, _, hbody, h⟩ := bind_pair h
    obtain ⟨_, _, hhandler, h⟩ := bind_pair h
    obtain ⟨_, hcopy, ⟨⟩⟩ := Option.bind_eq_some_iff.mp h
    obtain ⟨⟨_, _⟩, hf, rfl⟩ := Option.map_eq_some_iff.mp hcopy
    have hfins := scoped_finally (fun loops d c rest hle hf => ihfin hle (by simp) hf) hfin
    exact ⟨⟨ihbody hpops hfins hbody,
      ihhandler hpops (fun ctx hctx => hfins ctx ((emit_suffix hbody).mem hctx)) hhandler⟩,
      ihfin hpops (by simp) hf⟩

/-! ## §3 Runs -/

/-- No environment lies between what happens here and the `try` it belongs to:
between a raised exception and the handler, or a finalizer copy and its `try`. -/
def What.Clean : What → Prop
  | .deliver crossed | .copy crossed => crossed = 0
  | .op _ | .close => True

/-- The frame has the environments that were entered. -/
def Event.Kept (ev : Event) : Prop := ev.actual = ev.entered

/-- The environment when code that had entered `entered` is left. -/
def Outcome.Leaves (ds : List Nat) (entered left : List Env) : Outcome → Prop
  | .normal => left = entered
  | .jumped pos _ => ∃ target, ds[pos]? = some target ∧ left = entered.drop (entered.length - target)
  | .threw _ crossed => left.drop crossed = entered
  | .returned _ | .cut => True

theorem opEvents_kept {id : Option Nat} : ∀ ev ∈ opEvents id A A, ev.Kept := by
  intro ev hev
  simp only [opEvents, List.mem_map] at hev
  obtain ⟨_, -, rfl⟩ := hev
  rfl

theorem Closes.kept {n : Nat} (h : Closes A A n evs o) : ∀ ev ∈ evs, ev.Kept := by
  induction h with
  | done | cut => simp
  | threw => simp [Event.Kept]
  | next _ ih => simpa [Event.Kept] using ih

theorem Closes.leaves {σ : List Env} {n : Nat} (h : Closes A σ n evs o) (ds : List Nat) :
    o.Leaves ds σ σ := by
  induction h with
  | done | threw => rfl
  | cut => trivial
  | next _ ih => exact ih

theorem Emitted.Scoped.entries {d : Emitted} (h : c.Scoped ds depth) (hd : d ∈ c.entries) :
    d.Scoped ds depth := by
  induction c with
  | seq c e _ ihe =>
    rcases List.mem_cons.mp hd with rfl | hd
    · exact h
    · exact ihe h.2 hd
  | _ =>
    obtain rfl := List.mem_singleton.mp hd
    exact h

theorem Outcome.Leaves.leaveScope {e : Env} (hds : ∀ x ∈ ds, x ≤ A.length) (ho : o ≠ .normal)
    (h : o.Leaves ds (e :: A) left) :
    o.leaveScope.Leaves ds A left := by
  cases o with
  | normal => exact absurd rfl ho
  | jumped pos toCont =>
    obtain ⟨target, htarget, rfl⟩ := h
    have hle := hds target (List.mem_of_getElem? htarget)
    refine ⟨target, htarget, ?_⟩
    rw [List.length_cons, Nat.succ_sub hle, List.drop_succ_cons]
  | threw v crossed =>
    have htail : (left.drop crossed).tail = A := by rw [h, List.tail_cons]
    simpa [Outcome.leaveScope, Outcome.Leaves] using htail
  | returned | cut => trivial

theorem Outcome.Leaves.leaveRegion (h : o.Leaves (A.length :: ds) A left) :
    o.leaveRegion.Leaves ds A left := by
  cases o with
  | jumped pos toCont =>
    obtain ⟨target, htarget, rfl⟩ := h
    cases pos with
    | zero =>
      obtain rfl := Option.some.inj htarget
      simp [Outcome.leaveRegion, Outcome.Leaves]
    | succ pos => exact ⟨target, htarget, rfl⟩
  | _ => exact h

theorem Outcome.Leaves.goesOn (h : o.Leaves (A.length :: ds) A left) (ho : o.goesOn = true) :
    left = A := by
  cases o with
  | normal => exact h
  | jumped pos toCont =>
    cases pos with
    | zero =>
      obtain ⟨target, htarget, rfl⟩ := h
      obtain rfl := Option.some.inj htarget
      simp
    | succ => cases ho
  | threw | returned | cut => cases ho

theorem forall_mem_depths (h : ∀ x ∈ ds, x ≤ depth) :
    ∀ x ∈ depth :: ds, x ≤ depth := List.forall_mem_cons.mpr ⟨Nat.le_refl _, h⟩

/-- A stretch of a run, if it is clean, keeps to the environments that were entered, and leaves the
chain where its outcome says. -/
def Went (ds : List Nat) (A : List Env) (evs : List Event) (o : Outcome) (left : List Env) : Prop :=
  (∀ ev ∈ evs, ev.what.Clean) → (∀ ev ∈ evs, ev.Kept) ∧ o.Leaves ds A left

section Went

variable {ds' : List Nat} {A' left' : List Env} {evs' : List Event} {o' : Outcome} {w : What}
  {v crossed : Nat}

theorem Went.of_kept (hevs : ∀ ev ∈ evs, ev.Kept) (hleft : o.Leaves ds A left) :
    Went ds A evs o left := fun _ => ⟨hevs, hleft⟩

theorem Went.mono (h : Went ds A evs o left) (hleft : o.Leaves ds A left → o'.Leaves ds' A' left') :
    Went ds' A' evs o' left' := fun hclean => (h hclean).imp_right hleft

theorem Went.cons (h : Went ds A evs o left') (heq : left = A) :
    Went ds A (⟨w, A, left⟩ :: evs) o left' := by
  intro hclean
  obtain ⟨hevs, hleft⟩ := h (List.forall_mem_cons.mp hclean).2
  exact ⟨List.forall_mem_cons.mpr ⟨heq, hevs⟩, hleft⟩

theorem Went.append (h : Went ds A evs .normal left)
    (hthen : left = A → Went ds A evs' o left') : Went ds A (evs ++ evs') o left' := by
  intro hclean
  rw [List.forall_mem_append] at hclean
  obtain ⟨hevs, hleft⟩ := h hclean.1
  obtain ⟨hevs', hleft'⟩ := hthen hleft hclean.2
  exact ⟨List.forall_mem_append.mpr ⟨hevs, hevs'⟩, hleft'⟩

/-- A delivery that crosses no environment finds the frame as it was entered. -/
theorem Went.deliver (h : Went ds A evs (.threw v crossed) left)
    (hthen : left = A → Went ds A evs' o left') :
    Went ds A (evs ++ ⟨.deliver crossed, A, left⟩ :: evs') o left' := by
  intro hclean
  obtain ⟨hevs, hleft⟩ := h (List.forall_mem_append.mp hclean).1
  have hzero : crossed = 0 := hclean ⟨.deliver crossed, A, left⟩ (by simp)
  have hdelivered : left = A := by
    rwa [Outcome.Leaves, hzero, List.drop_zero] at hleft
  obtain ⟨hthen, hleft'⟩ := (hthen hdelivered).cons hdelivered (List.forall_mem_append.mp hclean).2
  exact ⟨List.forall_mem_append.mpr ⟨hevs, hthen⟩, hleft'⟩

theorem Went.opEvents {id : Option Nat} (heq : left = A) :
    Went ds A (opEvents id A left) .normal left := by
  subst heq
  exact .of_kept opEvents_kept rfl

/-- The body of a loop that goes on, behind the test. -/
theorem Went.body {id : Option Nat} (h : Went (A.length :: ds) A evs o left') (heq : left = A)
    (ho : o.goesOn = true) : Went ds A (Bccompiler.opEvents id A left ++ evs) .normal left' :=
  (Went.opEvents heq).append fun _ => h.mono fun hleft => hleft.goesOn ho

theorem Closes.went {n : Nat} (h : Closes A left n evs o) (heq : left = A)
    (hleft : o.Leaves ds left left → o'.Leaves ds A left') : Went ds A evs o' left' := by
  subst heq
  exact .of_kept h.kept (hleft (h.leaves ds))

end Went

/-- **A run keeps to the environments that were entered**, and leaves the frame's chain where its
outcome says. -/
theorem Exec.went {σ σ' : List Env} (h : Exec c A σ evs o σ')
    (hscoped : c.Scoped ds A.length) (hds : ∀ x ∈ ds, x ≤ A.length) (heq : σ = A) :
    Went ds A evs o σ' := by
  induction h generalizing ds with
  | cut => exact .of_kept (by simp) trivial
  | done => exact .of_kept (by simp) heq
  | instr | instrThrow | ifThrow | loopHeadThrow | switchThrow | switchNone | retThrow | throwOp
  | suspend | suspendThrow => exact .of_kept (by simpa [Event.Kept] using heq) heq
  | scope _ ih =>
    refine (ih hscoped (fun x hx => Nat.le_succ_of_le (hds x hx)) (by rw [heq])).mono fun hleft => ?_
    simp only [Outcome.Leaves] at hleft ⊢
    rw [hleft, List.tail_cons]
  | scopeOut _ ho ih =>
    exact (ih hscoped (fun x hx => Nat.le_succ_of_le (hds x hx)) (by rw [heq])).mono fun hleft =>
      hleft.leaveScope hds ho
  | seq _ _ ihc ihd => exact (ihc hscoped.1 hds heq).append fun hleft => ihd hscoped.2 hds hleft
  | seqOut _ _ ih => exact ih hscoped.1 hds heq
  | ifTrue _ ih => exact (ih hscoped.1 hds heq).cons heq
  | ifFalse _ ih => exact (ih hscoped.2 hds heq).cons heq
  | loopExit => exact .opEvents heq
  | loopOut _ ho ih =>
    exact (Went.opEvents heq).append fun _ =>
      (ih hscoped (forall_mem_depths hds) heq).mono .leaveRegion
  | loopCut _ ho ih =>
    exact (Went.opEvents heq).append fun _ =>
      (ih hscoped (forall_mem_depths hds) heq).mono fun _ => trivial
  | loopTailThrow _ ho ih =>
    refine ((ih hscoped (forall_mem_depths hds) heq).body heq ho).append fun hleft => ?_
    exact .of_kept (by simpa [Event.Kept] using hleft) hleft
  | loopLast _ ho ih =>
    exact ((ih hscoped (forall_mem_depths hds) heq).body heq ho).append fun hleft =>
      .opEvents hleft
  | loopAgain _ ho _ ih ihagain =>
    refine Went.append (Went.append ?_ fun hleft => .opEvents hleft) fun hleft =>
      ihagain hscoped hds hleft
    exact (ih hscoped (forall_mem_depths hds) heq).body heq ho
  | closing _ _ ih => exact ih hscoped hds heq
  | closingCut _ ih =>
    exact (ih hscoped hds heq).deliver fun _ => .of_kept (by simp) trivial
  | @closingThrow c A σ evs v n σ' guard _ ih =>
    refine (ih hscoped hds heq).deliver fun hleft => .of_kept ?_ hleft
    cases guard with
    | true => simp
    | false => simpa [Event.Kept] using hleft
  | region _ ih => exact (ih hscoped (forall_mem_depths hds) heq).mono .leaveRegion
  | switchIn hentry _ ih =>
    rw [Emitted.Scoped] at hscoped
    have hclause := ih (hscoped.entries hentry) (forall_mem_depths hds) heq
    exact (hclause.mono .leaveRegion).cons heq
  | exit _ hcloses ih =>
    obtain ⟨hcopies, target, htarget, hdepth⟩ := hscoped
    refine (ih hcopies hds heq).append fun hleft => hcloses.went hleft fun _ => ?_
    exact ⟨target, htarget, by rw [hleft, hdepth, Nat.add_sub_cancel_left]⟩
  | exitCopies _ _ ih => exact ih hscoped.1 hds heq
  | exitClose _ hcloses _ ih =>
    exact (ih hscoped.1 hds heq).append fun hleft => hcloses.went hleft (hleft ▸ id)
  | ret _ hcloses ih =>
    exact ((ih hscoped hds heq).cons heq).append fun hleft => hcloses.went hleft fun _ => trivial
  | retCopies _ _ ih => exact (ih hscoped hds heq).cons heq
  | retClose _ hcloses _ ih =>
    exact ((ih hscoped hds heq).cons heq).append fun hleft => hcloses.went hleft (hleft ▸ id)
  | suspendReturn _ ih => exact ((ih hscoped hds heq).cons heq).mono fun _ => trivial
  | suspendCopies _ _ ih => exact (ih hscoped hds heq).cons heq
  | @copy depth c A σ evs o σ' _ ih =>
    intro hclean
    -- nothing lies between the copy and its `try`, so they assume the same
    have hcopy : A.length - depth = 0 := (List.forall_mem_cons.mp hclean).1
    have hsame : A.drop (A.length - depth) = A := by rw [hcopy, List.drop_zero]
    rw [hsame] at ih hclean ⊢
    exact (ih hscoped.2 hds heq).cons heq hclean
  | catching _ _ ih => exact ih hscoped.1 hds heq
  | finalizingOut _ _ _ ih => exact ih hscoped.1 hds heq
  | finalized _ _ ihc ihf =>
    exact (ihc hscoped.1 hds heq).append fun hleft => ihf hscoped.2 hds hleft
  | caught _ _ ihc ihthen | rethrown _ _ ihc ihthen | overridden _ _ _ ihc ihthen =>
    exact (ihc hscoped.1 hds heq).deliver fun hleft => ihthen hscoped.2 hds hleft

/-! ## §4 What the compiler assumed -/

/-- The chain that depths are counted on: an environment of an iteration stands for the unit's own,
so behind it those of outer iterations and the unit's own are passed over. -/
def assumedFrom : Bool → List Env → List Env
  | _, [] => []
  | false, e :: chain => e :: assumedFrom (e.kind = .iteration) chain
  | true, e :: chain =>
    if e.kind = .iteration then assumedFrom true chain
    else if e.kind = .own then assumedFrom false chain
    else e :: assumedFrom true chain

def Event.assumed (ev : Event) : List Env := assumedFrom false ev.entered

theorem head_assumed (chain : List Env) : (assumedFrom false chain).head? = chain.head? := by
  cases chain <;> rfl

/-- In front of the first environment of an iteration nothing is passed over. -/
theorem assumed_of_shallow {chain : List Env} {d : Nat}
    (h : ∀ j < d, ∀ e, chain[j]? = some e → e.kind ≠ .iteration) :
    (assumedFrom false chain)[d]? = chain[d]? := by
  induction d generalizing chain with
  | zero =>
    rw [← List.head?_eq_getElem?, ← List.head?_eq_getElem?]
    exact head_assumed chain
  | succ d ih =>
    cases chain with
    | nil => rfl
    | cons e chain =>
      have hkind : e.kind ≠ .iteration := h 0 (Nat.succ_pos d) e rfl
      rw [assumedFrom, decide_eq_false hkind, List.getElem?_cons_succ, List.getElem?_cons_succ]
      exact ih fun j hj => h (j + 1) (Nat.succ_lt_succ hj)

section Accesses

variable (uses : Nat → Nat → Prop)

/-- An access there has the depth; `uses` tells those of each operation. -/
def What.Uses : What → Nat → Prop
  | .op id, d => uses id d
  | .close, _ | .deliver _, _ | .copy _, _ => False

/-- The frame's environment is the assumed one, and so is every one that the code there reaches. -/
def Event.Agrees (ev : Event) : Prop :=
  ev.actual.head? = ev.assumed.head? ∧ ∀ d, ev.what.Uses uses d → ev.actual[d]? = ev.assumed[d]?

/-- No access there goes through the environment of an iteration. -/
def Event.Shallow (ev : Event) : Prop :=
  ∀ d, ev.what.Uses uses d → ∀ j < d, ∀ e, ev.entered[j]? = some e → e.kind ≠ .iteration

theorem Event.Kept.agrees {ev : Event} (h : ev.Kept) (hshallow : ev.Shallow uses) :
    ev.Agrees uses := by
  unfold Event.Agrees Event.assumed
  rw [show ev.actual = ev.entered from h]
  exact ⟨(head_assumed _).symm, fun d hd => (assumed_of_shallow (hshallow d hd)).symm⟩

end Accesses

section Frame

variable {V : Type}

/-- `chain` is the frame's environment chain, innermost first. -/
def ShowsChain (f : EnvFrame V) (chain : List Env) : Prop :=
  ∀ depth, walkEnv f.envs f.env depth = chain[depth]?.map Env.handle

theorem ShowsChain.envRead {f : EnvFrame V} {chain : List Env} (h : ShowsChain f chain)
    (hmirrors : f.Mirrors) (depth slot : Nat) :
    f.envRead depth slot = (chain[depth]?.map Env.handle).bind fun e => slotAt f.envs e slot := by
  rw [EnvFrame.envRead, EnvFrame.envAt_eq hmirrors, h depth]

theorem ShowsChain.envWrite {f : EnvFrame V} {chain : List Env} (h : ShowsChain f chain)
    (hmirrors : f.Mirrors) (depth slot : Nat) (v : V) :
    f.envWrite depth slot v = (chain[depth]?.map Env.handle).bind fun e =>
      (slotAt f.envs e slot).map fun _ => { f with envs := setSlot f.envs e slot v } := by
  rw [EnvFrame.envWrite, EnvFrame.envAt_eq hmirrors, h depth]

/-- In a frame at this event, every access that the code makes there is one of the
binding the compiler assumed at its depth and slot. -/
def Event.ReachesAssumed (uses : Nat → Nat → Prop) (ev : Event) (f : EnvFrame V) : Prop :=
  ∀ depth slot, ev.what.Uses uses depth →
    (f.envRead depth slot =
      (ev.assumed[depth]?.map Env.handle).bind fun e => slotAt f.envs e slot) ∧
    ∀ v, f.envWrite depth slot v = (ev.assumed[depth]?.map Env.handle).bind fun e =>
      (slotAt f.envs e slot).map fun _ => { f with envs := setSlot f.envs e slot v }

theorem Event.Agrees.reachesAssumed {uses : Nat → Nat → Prop} {ev : Event} (h : ev.Agrees uses)
    {f : EnvFrame V} (hmirrors : f.Mirrors) (hshows : ShowsChain f ev.actual) :
    ev.ReachesAssumed uses f := by
  intro depth slot huses
  rw [← h.2 depth huses]
  exact ⟨hshows.envRead hmirrors depth slot, hshows.envWrite hmirrors depth slot⟩

end Frame

/-! ## §5 Whole bodies -/

def EnvsAgree (V : Type) (uses : Nat → Nat → Prop) (evs : List Event) : Prop :=
  ∀ ev ∈ evs, ev.Agrees uses ∧
    ∀ f : EnvFrame V, f.Mirrors → ShowsChain f ev.actual → ev.ReachesAssumed uses f

/-- `try { for (const x of a) { f.push(() => x); g(); } } catch { h(); }` -/
def catchAroundLoop : Stmt := .tryCatch (.forEach none true true 1 (.op 2)) (.op 3)

/-- The unit's own environment, and that of its first iteration. -/
def ownEnv : Env := ⟨.own, 0⟩

def firstEnv : Env := ⟨.iteration, 1⟩

end V12.Bccompiler
