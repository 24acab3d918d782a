/-
V12.Bccompiler.YieldDelegateTheorems — when the code of `yield*` exchanges with
the inner iterator what the language says.

§1 runs the code between two suspensions, by the pieces it is emitted in.
§2 sets the answers beside the language's, request by request, and §3 follows a run
of requests.
-/
import V12.Bccompiler.YieldDelegate

namespace V12.Delegate

variable {σ V : Type} [Inhabited V]
variable {mode : Bool} {c : Config σ V}

/-! ## §1 The code between two suspensions -/

/-- What the loop keeps in its registers. -/
structure Config.Keeps (c : Config σ V) : Prop where
  iter : c.regs .iter = .iter
  nextKey : c.regs .nextKey = .key .next
  doneKey : c.regs .doneKey = .key .done
  valueKey : c.regs .valueKey = .key .value

/-- Suspended at the delegating yield. -/
structure Config.Suspended (async mode : Bool) (s : σ) (c : Config σ V) : Prop where
  keeps : c.Keeps
  pc : c.pc = resumePc async
  mode : c.mode = mode
  inner : c.inner = s

/-- The run stops with these calls and this answer; after a yield it is suspended at the
delegating yield, with the mode it had. -/
def Stops (async mode : Bool) (n : Next σ V) (s : σ) (exchange : Exchange V) : Prop :=
  ∃ c, n = .stopped c exchange.2 ∧ c.calls = exchange.1 ∧
    ∀ v, exchange.2 = .yielded v → c.Suspended async mode s

/-- The answer the code reads off a result of `next`: only `undefined` and `null` are
refused, and a primitive has neither a `done` nor a `value`. -/
def read : IterResult V → Response V
  | .object false value => .yielded value
  | .object true value => .completed value
  | .nullish => .threw .typeError
  | .primitive => .yielded default

/-- The answer the code reads off a result of `return`, done or not. -/
def readReturn : IterResult V → Response V
  | .object _ value => .returned value
  | .nullish => .threw .typeError
  | .primitive => .returned default

theorem target_sync :
    target false .loopEnd = 33 ∧ target false .processResult = 8 ∧ target false .resumeOk = 26 := by
  decide

theorem target_async :
    target true .loopEnd = 44 ∧ target true .processResult = 11 ∧ target true .resumeOk = 35 := by
  decide

attribute [local simp] Config.run Config.step Config.set Config.getProperty Config.callMethod
  Config.await GenKind.isAsync GenKind.await Word.truthy Word.toValue delegateCode startCode
  processCode forwardCode delegateReturnPath resumePc target_sync target_async

/-- The code is about to look at an inner result. -/
structure Config.Processes (async mode : Bool) (s : σ) (calls : List (InnerCall V))
    (r : IterResult V) (c : Config σ V) : Prop where
  keeps : c.Keeps
  pc : c.pc = target async .processResult
  result : c.regs .result = .result r
  mode : c.mode = mode
  inner : c.inner = s
  calls : c.calls = calls

theorem run_process (kind : GenKind V) (inner : Inner σ V) {s : σ} {calls : List (InnerCall V)}
    {r : IterResult V} (hc : c.Processes kind.isAsync mode s calls r) (n : Nat) :
    Stops kind.isAsync mode (Config.run kind inner (n + 8) c) s (calls, read r) := by
  obtain ⟨pc, regs, s, calls, mode⟩ := c
  obtain ⟨⟨hiter, hnext, hdone, hvalue⟩, hpc, hresult, hmode, hinner, hcalls⟩ := hc
  simp only at hpc hiter hnext hdone hvalue hresult hmode hinner hcalls
  subst hpc hmode hinner hcalls
  -- One path for each kind of generator and each shape of the result.
  rcases kind with _ | await <;> rcases r with ⟨_ | _, v⟩ | _ | _
  all_goals
    simp [Stops, read, hresult, hdone, hvalue]
  all_goals
    exact ⟨⟨by simpa using hiter, by simpa using hnext, by simpa using hdone, by simpa using hvalue⟩,
      rfl, rfl, rfl⟩

theorem run_add (kind : GenKind V) (inner : Inner σ V) (m n : Nat) (c : Config σ V) :
    Config.run kind inner (m + n) c =
      match Config.run kind inner m c with
      | .going c' => Config.run kind inner n c'
      | .stopped c' response => .stopped c' response := by
  induction m generalizing c with
  | zero => simp only [Nat.zero_add, Config.run]
  | succ m ih =>
    rw [Nat.succ_add]
    simp only [Config.run]
    cases h : Config.step kind inner c with
    | going c' => exact ih c'
    | stopped c' response => rfl

theorem stops_of_processes (kind : GenKind V) (inner : Inner σ V) {s : σ}
    {calls : List (InnerCall V)} {r : IterResult V} (m : Nat) (hm : m ≤ 40)
    (h : ∃ c', Config.run kind inner m c = .going c' ∧ c'.Processes kind.isAsync mode s calls r) :
    Stops kind.isAsync mode (Config.run kind inner codeFuel c) s (calls, read r) := by
  obtain ⟨c', hrun, hc⟩ := h
  have hfuel : codeFuel = m + ((56 - m) + 8) := by
    simp only [codeFuel]
    omega
  rw [hfuel, run_add, hrun]
  exact run_process kind inner hc (56 - m)

/-- The answer to what a method returned or threw, the code reading a result so. -/
def codeAnswer (reads : IterResult V → Response V) : Except V (IterResult V) → Response V
  | .ok r => reads r
  | .error e => .threw (.value e)

theorem run_start (kind : GenKind V) (inner : Inner σ V) (mode : Bool) (s : σ) :
    Stops kind.isAsync mode (Config.run kind inner codeFuel (.start mode s))
      (inner.next s default).1
      ([.next default], codeAnswer read (inner.next s default).2) := by
  cases h : (inner.next s default).2 with
  | error e =>
    rcases kind with _ | await <;> simp [Stops, codeFuel, codeAnswer, Config.start, h]
  | ok r =>
    rcases kind with _ | await
    · refine stops_of_processes .sync inner 8 (by omega) ?_
      simp only [Config.start]
      simp [h]
      exact ⟨⟨by simp, by simp, by simp, by simp⟩, by simp, by simp, rfl, rfl, rfl⟩
    · refine stops_of_processes (.async await) inner 11 (by omega) ?_
      simp only [Config.start]
      simp [h]
      exact ⟨⟨by simp, by simp, by simp, by simp⟩, by simp, by simp, rfl, rfl, rfl⟩

theorem resume_next (kind : GenKind V) (inner : Inner σ V) {s : σ}
    (hc : c.Suspended kind.isAsync false s) (v w : V) (hw : kind.await v = .ok w) :
    Stops kind.isAsync false (c.resume kind inner (.next v)) (inner.next s w).1
      ([.next w], codeAnswer read (inner.next s w).2) := by
  obtain ⟨pc, regs, s, calls, mode⟩ := c
  obtain ⟨⟨hiter, hnext, hdone, hvalue⟩, hpc, hmode, hinner⟩ := hc
  simp only at hpc hiter hnext hdone hvalue hmode hinner
  subst hpc hmode hinner
  simp only [Config.resume]
  cases h : (inner.next s w).2 with
  | error e =>
    rcases kind with _ | await
    · obtain rfl : v = w := by simpa using hw
      simp [Stops, codeFuel, codeAnswer, hiter, hnext, h]
    · simp only [GenKind.await] at hw
      simp [Stops, codeFuel, codeAnswer, hiter, hnext, hw, h]
  | ok r =>
    rcases kind with _ | await
    · obtain rfl : v = w := by simpa using hw
      refine stops_of_processes .sync inner 9 (by omega) ?_
      simp [hiter, hnext, h]
      exact ⟨⟨by simpa using hiter, by simpa using hnext, by simpa using hdone,
        by simpa using hvalue⟩, by simp, by simp, rfl, rfl, rfl⟩
    · simp only [GenKind.await] at hw
      refine stops_of_processes (.async await) inner 13 (by omega) ?_
      simp [hiter, hnext, hw, h]
      exact ⟨⟨by simpa using hiter, by simpa using hnext, by simpa using hdone,
        by simpa using hvalue⟩, by simp, by simp, rfl, rfl, rfl⟩

/-- A return completion at the delegating yield: the inner `return` is called, or looked for
in vain. -/
def codeReturn (inner : Inner σ V) (s : σ) (w : V) : σ × Exchange V :=
  match inner.returnMethod with
  | some method => ((method s w).1, [.returns w], codeAnswer readReturn (method s w).2)
  | none => (s, [], .threw .typeError)

theorem resume_returns (kind : GenKind V) (inner : Inner σ V) {s : σ}
    (hc : c.Suspended kind.isAsync mode s) (v w : V) (hw : kind.await v = .ok w) :
    Stops kind.isAsync mode (c.resume kind inner (.returns v)) (codeReturn inner s w).1
      (codeReturn inner s w).2 := by
  obtain ⟨pc, regs, s, calls, mode⟩ := c
  obtain ⟨⟨hiter, hnext, hdone, hvalue⟩, hpc, hmode, hinner⟩ := hc
  simp only at hpc hiter hnext hdone hvalue hmode hinner
  subst hpc hmode hinner
  simp only [Config.resume, codeReturn]
  cases hreturn : inner.returnMethod with
  | none =>
    rcases kind with _ | await
    · simp [Stops, codeFuel, hiter, hreturn]
    · simp only [GenKind.await] at hw
      simp [Stops, codeFuel, hiter, hreturn, hw]
  | some method =>
    rcases kind with _ | await
    · obtain rfl : v = w := by simpa using hw
      rcases h : (method s v).2 with e | ⟨_, value⟩ | _ | _ <;>
        simp [Stops, codeFuel, codeAnswer, readReturn, hiter, hreturn, h]
    · simp only [GenKind.await] at hw
      rcases h : (method s w).2 with e | ⟨_, value⟩ | _ | _ <;>
        simp [Stops, codeFuel, codeAnswer, readReturn, hiter, hreturn, hw, h]

theorem resume_rejected (kind : GenKind V) (inner : Inner σ V) {s : σ}
    (hc : c.Suspended kind.isAsync mode s) {request : Request V} {v e : V}
    (hrequest : request = .next v ∨ request = .returns v) (he : kind.await v = .error e) :
    Stops kind.isAsync mode (c.resume kind inner request) s ([], .threw (.value e)) := by
  obtain ⟨pc, regs, s, calls, mode⟩ := c
  obtain ⟨-, hpc, hmode, hinner⟩ := hc
  simp only at hpc hmode hinner
  subst hpc hmode hinner
  rcases kind with _ | await
  · simp at he
  · simp only [GenKind.await] at he
    rcases hrequest with rfl | rfl <;> simp [Config.resume, Stops, codeFuel, he]

theorem resume_next_pending (kind : GenKind V) (inner : Inner σ V) {s : σ}
    (hc : c.Suspended kind.isAsync true s) (v : V) :
    c.resume kind inner (.next v) = c.resume kind inner (.returns v) := by
  simp only [Config.resume, hc.mode]

def codeResume (kind : GenKind V) (inner : Inner σ V) (mode : Bool) (s : σ) :
    Request V → σ × Exchange V
  | .throws e => (s, [], .threw (.value e))
  | .next v =>
    match kind.await v, mode with
    | .error e, _ => (s, [], .threw (.value e))
    | .ok w, true => codeReturn inner s w
    | .ok w, false => ((inner.next s w).1, [.next w], codeAnswer read (inner.next s w).2)
  | .returns v =>
    match kind.await v with
    | .error e => (s, [], .threw (.value e))
    | .ok w => codeReturn inner s w

theorem resume_stops (kind : GenKind V) (inner : Inner σ V) {s : σ}
    (hc : c.Suspended kind.isAsync mode s) (request : Request V) :
    Stops kind.isAsync mode (c.resume kind inner request) (codeResume kind inner mode s request).1
      (codeResume kind inner mode s request).2 := by
  cases request with
  | throws e => simp [Config.resume, Stops, codeResume]
  | next v =>
    simp only [codeResume]
    cases hawait : kind.await v with
    | error e => exact resume_rejected kind inner hc (.inl rfl) hawait
    | ok w =>
      cases mode with
      | false => exact resume_next kind inner hc v w hawait
      | true =>
        rw [resume_next_pending kind inner hc]
        exact resume_returns kind inner hc v w hawait
  | returns v =>
    simp only [codeResume]
    cases hawait : kind.await v with
    | error e => exact resume_rejected kind inner hc (.inr rfl) hawait
    | ok w => exact resume_returns kind inner hc v w hawait

theorem serve_eq (kind : GenKind V) (inner : Inner σ V) (mode : Bool) (requests : List (Request V))
    {n : Next σ V} {s : σ} {exchange : Exchange V}
    (hn : Stops kind.isAsync mode n s exchange) :
    Config.serve kind inner n requests =
      serveWith (codeResume kind inner mode) (s, exchange) requests := by
  induction requests generalizing n s exchange with
  | nil =>
    obtain ⟨calls, response⟩ := exchange
    obtain ⟨c, rfl, rfl, -⟩ := hn
    cases response <;> simp only [Config.serve, serveWith]
  | cons request rest ih =>
    obtain ⟨calls, response⟩ := exchange
    obtain ⟨c, rfl, rfl, hyielded⟩ := hn
    cases response with
    | yielded v =>
      simp only [Config.serve, serveWith]
      rw [ih (resume_stops kind inner (hyielded v rfl) request)]
    | completed v => simp only [Config.serve, serveWith]
    | returned v => simp only [Config.serve, serveWith]
    | threw e => simp only [Config.serve, serveWith]

/-- **The compiled delegation, request by request.** -/
theorem compiled_eq (kind : GenKind V) (inner : Inner σ V) (mode : Bool) (s : σ)
    (requests : List (Request V)) :
    compiled kind inner mode s requests =
      serveWith (codeResume kind inner mode)
        ((inner.next s default).1, [.next default], codeAnswer read (inner.next s default).2)
        requests :=
  serve_eq kind inner mode requests (run_start kind inner mode s)

/-! ## §2 Beside the language -/

/-- The result is one the code reads as the language does: an object, or one both refuse. -/
def Readable : Except V (IterResult V) → Prop
  | .ok .primitive => False
  | _ => True

/-- The call of `return` ends the delegation in the language too: it throws, or its result
is done or refused. -/
def Ends : Except V (IterResult V) → Prop
  | .ok .primitive | .ok (.object false _) => False
  | _ => True

def Yields : Except V (IterResult V) → Prop
  | .ok (.object false _) => True
  | _ => False

/-- What a run of requests on the suspended delegation must be for the code to forward it:
no request throws; a `next` comes with no return completion pending, with a value its
await leaves alone, and its result is readable; a `return` finds a method that ends
the delegation. -/
def Forwarded (kind : GenKind V) (inner : Inner σ V) (mode : Bool) : σ → List (Request V) → Prop
  | _, [] => True
  | _, .throws _ :: _ => False
  | s, .returns v :: _ =>
    ∃ method w, inner.returnMethod = some method ∧ kind.await v = .ok w ∧ Ends (method s w).2
  | s, .next v :: rest =>
    mode = false ∧ kind.await v = .ok v ∧ Readable (inner.next s v).2 ∧
      (Yields (inner.next s v).2 → Forwarded kind inner mode (inner.next s v).1 rest)

theorem codeAnswer_read_iff (r : Except V (IterResult V)) :
    codeAnswer read r = answer .completed r ↔ Readable r := by
  rcases r with e | ⟨_ | _, value⟩ | _ | _ <;> simp [codeAnswer, read, answer, Readable]

theorem codeAnswer_readReturn_iff (r : Except V (IterResult V)) :
    codeAnswer readReturn r = answer .returned r ↔ Ends r := by
  rcases r with e | ⟨_ | _, value⟩ | _ | _ <;> simp [codeAnswer, readReturn, answer, Ends]

theorem answer_yielded_iff (r : Except V (IterResult V)) :
    (∃ v, answer .completed r = .yielded v) ↔ Yields r := by
  rcases r with e | ⟨_ | _, value⟩ | _ | _ <;> simp [answer, Yields]

theorem specThrow_ne (inner : Inner σ V) (s : σ) (e e' : V) :
    (specThrow inner s e).2 ≠ ([], .threw (.value e')) := by
  unfold specThrow
  rcases inner.throwMethod with _ | method
  · rcases inner.returnMethod with _ | close <;> simp
  · simp [forwarded]

theorem returns_iff (kind : GenKind V) (inner : Inner σ V) (mode : Bool) (s : σ) (v : V)
    (rest : List (Request V)) :
    (codeResume kind inner mode s (.returns v)).2 = (specResume kind inner s (.returns v)).2 ↔
      Forwarded kind inner mode s (.returns v :: rest) := by
  simp only [codeResume, specResume, Forwarded]
  cases hawait : kind.await v with
  | error e => simpa using (specThrow_ne inner s e e).symm
  | ok w =>
    cases hreturn : inner.returnMethod with
    | none =>
      simp only [codeReturn, specReturn, hreturn]
      cases kind.await w <;> simp
    | some method =>
      simp [codeReturn, specReturn, hreturn, forwarded, codeAnswer_readReturn_iff]

theorem next_iff (kind : GenKind V) (inner : Inner σ V) (mode : Bool) (s : σ) (v : V) :
    (codeResume kind inner mode s (.next v)).2 = (specResume kind inner s (.next v)).2 ↔
      mode = false ∧ kind.await v = .ok v ∧ Readable (inner.next s v).2 := by
  simp only [codeResume, specResume, forwarded]
  cases hawait : kind.await v with
  | error e => simp
  | ok w =>
    cases mode with
    | true => simp only [codeReturn]; cases inner.returnMethod <;> simp
    | false =>
      constructor
      · intro h
        obtain ⟨hcalls, hanswer⟩ := Prod.mk.inj h
        obtain rfl : w = v := by simpa using hcalls
        exact ⟨rfl, rfl, (codeAnswer_read_iff _).mp hanswer⟩
      · rintro ⟨-, hw, hreadable⟩
        obtain rfl : w = v := by simpa using hw
        exact Prod.ext rfl ((codeAnswer_read_iff _).mpr hreadable)

theorem returns_ne_yielded (kind : GenKind V) (inner : Inner σ V) (mode : Bool) (s : σ) (v u : V) :
    (codeResume kind inner mode s (.returns v)).2.2 ≠ .yielded u := by
  simp only [codeResume, codeReturn]
  rcases kind.await v with e | w
  · simp
  · rcases inner.returnMethod with _ | method
    · simp
    · rcases h : (method s w).2 with e | ⟨_, value⟩ | _ | _ <;> simp [h, codeAnswer, readReturn]

/-! ## §3 Runs of requests -/

omit [Inhabited V] in
theorem head_eq {resume resume' : σ → Request V → σ × Exchange V} {p p' : σ × Exchange V}
    {requests requests' : List (Request V)}
    (h : serveWith resume p requests = serveWith resume' p' requests') : p.2 = p'.2 := by
  rw [serveWith.eq_def, serveWith.eq_def] at h
  exact (List.cons.inj h).1

omit [Inhabited V] in
theorem serveWith_ended {resume : σ → Request V → σ × Exchange V} {p : σ × Exchange V}
    (hp : ∀ v, p.2.2 ≠ .yielded v) (requests : List (Request V)) :
    serveWith resume p requests = [p.2] := by
  obtain ⟨s, calls, response⟩ := p
  cases response with
  | yielded v => exact absurd rfl (hp v)
  | completed v => simp only [serveWith]
  | returned v => simp only [serveWith]
  | threw e => simp only [serveWith]

theorem serveWith_iff (kind : GenKind V) (inner : Inner σ V) (mode : Bool)
    (requests : List (Request V)) (p : σ × Exchange V) :
    serveWith (codeResume kind inner mode) p requests = serveWith (specResume kind inner) p requests ↔
      ((∃ v, p.2.2 = .yielded v) → Forwarded kind inner mode p.1 requests) := by
  induction requests generalizing p with
  | nil =>
    obtain ⟨s, calls, response⟩ := p
    cases response <;> simp [serveWith, Forwarded]
  | cons request rest ih =>
    by_cases hyielded : ∃ v, p.2.2 = .yielded v
    · obtain ⟨s, calls, response⟩ := p
      obtain ⟨u, rfl⟩ := hyielded
      simp only [serveWith, List.cons.injEq, true_and, Response.yielded.injEq, exists_eq',
        forall_const]
      cases request with
      | throws e =>
        -- The language's run starts with the iterator's answer, the code's without one.
        simp only [Forwarded, iff_false]
        intro h
        exact specThrow_ne inner s e e (head_eq h).symm
      | returns v =>
        have hended := returns_ne_yielded kind inner mode s v
        rw [← returns_iff kind inner mode s v rest]
        constructor
        · intro h
          exact head_eq h
        · intro h
          have hended' : ∀ u, (specResume kind inner s (.returns v)).2.2 ≠ .yielded u := by
            intro u
            rw [← h]
            exact hended u
          rw [serveWith_ended hended, serveWith_ended hended', h]
      | next v =>
        constructor
        · intro h
          obtain ⟨hmode, hawait, hreadable⟩ := (next_iff kind inner mode s v).mp (head_eq h)
          refine ⟨hmode, hawait, hreadable, fun hyields => ?_⟩
          have hsame : codeResume kind inner mode s (.next v) = specResume kind inner s (.next v) := by
            refine Prod.ext ?_ (head_eq h)
            simp only [codeResume, specResume, forwarded, hmode, hawait]
          rw [hsame] at h
          exact (ih _).mp h ((answer_yielded_iff _).mpr hyields)
        · rintro ⟨hmode, hawait, hreadable, hrest⟩
          have hsame : codeResume kind inner mode s (.next v) = specResume kind inner s (.next v) := by
            refine Prod.ext ?_ ((next_iff kind inner mode s v).mpr ⟨hmode, hawait, hreadable⟩)
            simp only [codeResume, specResume, forwarded, hmode, hawait]
          rw [hsame]
          exact (ih _).mpr fun h => hrest ((answer_yielded_iff _).mp h)
    · have hended : ∀ v, p.2.2 ≠ .yielded v := fun v h => hyielded ⟨v, h⟩
      simp only [serveWith_ended hended, hyielded, false_implies]

/-- What the inner iterator and the requests must be for the code to delegate as the
language does: the first result is readable, and the requests that follow it while the
delegation is suspended are forwarded. -/
def Delegates (kind : GenKind V) (inner : Inner σ V) (mode : Bool) (s : σ)
    (requests : List (Request V)) : Prop :=
  Readable (inner.next s default).2 ∧
    (Yields (inner.next s default).2 → Forwarded kind inner mode (inner.next s default).1 requests)

/-- **When `yield*` delegates**: the calls the inner iterator receives and the answers of
the outer generator are the language's exactly when the first result is readable, and
every request that reaches the suspended delegation is one the code forwards. -/
theorem compiled_delegates_iff (kind : GenKind V) (inner : Inner σ V) (mode : Bool) (s : σ)
    (requests : List (Request V)) :
    compiled kind inner mode s requests = Delegation kind inner s requests ↔
      Delegates kind inner mode s requests := by
  rw [compiled_eq]
  unfold Delegation Delegates forwarded
  constructor
  · intro h
    have hhead := head_eq h
    have hanswer := (Prod.mk.inj hhead).2
    rw [hanswer, serveWith_iff] at h
    exact ⟨(codeAnswer_read_iff _).mp hanswer, fun hyields => h ((answer_yielded_iff _).mpr hyields)⟩
  · rintro ⟨hreadable, hrest⟩
    rw [(codeAnswer_read_iff _).mpr hreadable, serveWith_iff]
    exact fun hyields => hrest ((answer_yielded_iff _).mp hyields)

/-- An iterator over two values that takes a `throw` and goes on. -/
def forgiving : Inner Nat Nat where
  next n _ := (n + 1, .ok (.object (decide (2 ≤ n)) n))
  throwMethod := some fun n _ => (n, .ok (.object false 7))
  returnMethod := none

/-- `throw` on the outer generator never reaches the inner iterator's `throw` method: the
exception leaves the generator. -/
theorem not_compiled_delegates :
    ¬ ∀ (kind : GenKind Nat) (inner : Inner Nat Nat) (mode : Bool) (s : Nat)
      (requests : List (Request Nat)),
      compiled kind inner mode s requests = Delegation kind inner s requests := by
  intro h
  have := h .sync forgiving false 0 [.throws 3]
  revert this
  decide

end V12.Delegate
