import MirageLambda.Common.BundleRoundtrip
import MirageLambda.Control.Server

/-!
# What an invocation gives back

A synchronous invocation takes two things while it runs: one of the tenant's concurrent executions and a
slot of the engine table. `Restored` says that both are back. Every exit with a response gives them back;
between `accept_for_execution` and `release` there is no handler for exceptions, so an exception there keeps
the execution for good, and the slot too if the engine was already created. A request that `Dies` has no exit:
the process aborts while its engine is destroyed.

`invoke_restores_iff` says which requests leak and which die.
-/

namespace MirageLambda
open OCaml Qjs

/-- The counts and the engine table of a server that has only handled requests. -/
structure ServerState.WF (s : ServerState) : Prop where
  handles : s.qjs.handles.WF
  counts : s.admission.CountsNonneg

/-- The tenant's concurrent executions and the occupied slots are what they were. -/
def Restored (tenant : TenantId) (s s' : ServerState) : Prop :=
  Admission.counter s'.admission.concurrent tenant = Admission.counter s.admission.concurrent tenant ∧
    s'.qjs.handles.occupied = s.qjs.handles.occupied

/-- **The synchronous requests that leak.** The request is admitted and the tenant has room; then the qualifier
is no slug, or it is one and an exception leaves `run_one`. -/
def Leaks (Y : Yojson) (env : Env) (tenant : TenantId) (functionName : FunctionName) (qualifier body : Str)
    (s : ServerState) : Prop :=
  let deadline := env.nowMs + 5000
  (s.admission.admitRequest tenant deadline env.nowMs body.length).1 = .ok () ∧ s.admission.HasRoom tenant ∧
    ∃ invocationId : InvocationId, invocationId.toStr = str "inv-" ++ decimal (s.invocations.length + 1) ∧
      ((∀ q : Qualifier, q.toStr ≠ qualifier) ∨ ∃ q : Qualifier, q.toStr = qualifier ∧
        Crashes Y env.worker s.artifactStore s.fs s.registry invocationId tenant functionName q body deadline s.qjs)

/-- **The synchronous requests that are the end of the process.** The request is admitted, the tenant has room, the
qualifier is a slug and `run_one` aborts. -/
def Dies (Y : Yojson) (env : Env) (tenant : TenantId) (functionName : FunctionName) (qualifier body : Str)
    (s : ServerState) : Prop :=
  let deadline := env.nowMs + 5000
  (s.admission.admitRequest tenant deadline env.nowMs body.length).1 = .ok () ∧ s.admission.HasRoom tenant ∧
    ∃ invocationId : InvocationId, invocationId.toStr = str "inv-" ++ decimal (s.invocations.length + 1) ∧
      ∃ q : Qualifier, q.toStr = qualifier ∧
        Aborts Y env.worker s.artifactStore s.fs s.registry invocationId tenant functionName q body deadline s.qjs

/-- What makes an accepted execution leak: the qualifier is no slug, or an exception leaves `run_one`. -/
def CrashesAccepted (Y : Yojson) (env : Env) (invocationId : InvocationId) (tenant : TenantId)
    (functionName : FunctionName) (qualifier body : Str) (deadline : Int64) (s : ServerState) : Prop :=
  (∀ q : Qualifier, q.toStr ≠ qualifier) ∨ ∃ q : Qualifier, q.toStr = qualifier ∧
    Crashes Y env.worker s.artifactStore s.fs s.registry invocationId tenant functionName q body deadline s.qjs

/-- What makes it the end of the process: the qualifier is a slug and `run_one` aborts. -/
def AbortsAccepted (Y : Yojson) (env : Env) (invocationId : InvocationId) (tenant : TenantId)
    (functionName : FunctionName) (qualifier body : Str) (deadline : Int64) (s : ServerState) : Prop :=
  ∃ q : Qualifier, q.toStr = qualifier ∧
    Aborts Y env.worker s.artifactStore s.fs s.registry invocationId tenant functionName q body deadline s.qjs

/-! ## The counts -/

namespace Admission

theorem hasRoom_admitRequest (t : Admission) (tenant : TenantId) (d n : Int64) (b : Int) :
    (t.admitRequest tenant d n b).2.HasRoom tenant ↔ t.HasRoom tenant := by
  unfold HasRoom quotaFor
  rw [concurrent_admitRequest, quotas_admitRequest]

theorem countsNonneg_admitRequest {t : Admission} (h : t.CountsNonneg) (tenant : TenantId) (d n : Int64) (b : Int) :
    (t.admitRequest tenant d n b).2.CountsNonneg := by
  intro u
  rw [concurrent_admitRequest]
  exact h u

theorem countsNonneg_acceptForExecution {t : Admission} (h : t.CountsNonneg) (tenant : TenantId) :
    (t.acceptForExecution tenant).2.CountsNonneg := by
  intro u
  obtain ⟨-, e, heq⟩ | ⟨-, -, hcount, -⟩ := t.acceptForExecution_cases tenant
  · rw [heq]
    exact h u
  · have htenant := h tenant
    have hu := h u
    rw [hcount, counter_replace]
    split <;> omega

theorem countsNonneg_release {t : Admission} (h : t.CountsNonneg) (tenant : TenantId) :
    (t.release tenant).CountsNonneg := by
  intro u
  have hu := h u
  rw [counter_release]
  split
  · omega
  · exact hu

/-- `release` undoes the count of `accept_for_execution`. -/
theorem counter_release_accepted {t t' : Admission} {tenant : TenantId} (h : t.CountsNonneg)
    (hcount : t'.concurrent = t.concurrent.replace tenant (counter t.concurrent tenant + 1)) :
    counter (t'.release tenant).concurrent tenant = counter t.concurrent tenant := by
  have hpos := h tenant
  have hself : counter t'.concurrent tenant = counter t.concurrent tenant + 1 := by
    rw [hcount, counter_replace, if_pos rfl]
  rw [counter_release, if_pos ⟨rfl, by omega⟩, hself]
  omega

end Admission

/-! ## The exits -/

section
variable (Y : Yojson) (env : Env) (invId : InvocationId) (tenant : TenantId) (fn : FunctionName) (body : Str)
  (deadline : Int64) {s : ServerState}

/-- `run_one` changes the engines only. -/
theorem runOnServer_cases (hwf : s.qjs.handles.WF) (q : Qualifier) :
    (Crashes Y env.worker s.artifactStore s.fs s.registry invId tenant fn q body deadline s.qjs ∧
      ¬ Aborts Y env.worker s.artifactStore s.fs s.registry invId tenant fn q body deadline s.qjs ∧
      ∃ x qjs, runOnServer Y env.worker invId tenant fn q body deadline s = (.raised x, { s with qjs }) ∧
        qjs.handles.WF) ∨
    (¬ Crashes Y env.worker s.artifactStore s.fs s.registry invId tenant fn q body deadline s.qjs ∧
      Aborts Y env.worker s.artifactStore s.fs s.registry invId tenant fn q body deadline s.qjs ∧
      ∃ qjs, runOnServer Y env.worker invId tenant fn q body deadline s = (.raised .aborted, { s with qjs }) ∧
        qjs.handles.WF) ∨
    (¬ Crashes Y env.worker s.artifactStore s.fs s.registry invId tenant fn q body deadline s.qjs ∧
      ¬ Aborts Y env.worker s.artifactStore s.fs s.registry invId tenant fn q body deadline s.qjs ∧
      ∃ r qjs, runOnServer Y env.worker invId tenant fn q body deadline s = (.ok r, { s with qjs }) ∧
        qjs.handles.WF ∧ qjs.handles.occupied = s.qjs.handles.occupied) := by
  obtain ⟨hcrash, hlives, x, st', heq, hwf'⟩ | ⟨hno, habort, st', heq, hwf'⟩ |
      ⟨hno, hlives, r, st', heq, hret, -, hwf', hocc⟩ :=
    runOne_cases Y env.worker s.artifactStore s.fs s.registry invId tenant fn q body deadline hwf
  · refine Or.inl ⟨hcrash, hlives, x, st', ?_, hwf'⟩
    simp only [runOnServer, heq]
  · refine Or.inr (Or.inl ⟨hno, habort, st', ?_, hwf'⟩)
    simp only [runOnServer, heq]
  · obtain ⟨a, rfl⟩ | ⟨e, rfl⟩ := Outcome.returns_iff.1 hret
    · refine Or.inr (Or.inr ⟨hno, hlives, .ok a, st', ?_, hwf', hocc⟩)
      simp only [runOnServer, heq]
    · refine Or.inr (Or.inr ⟨hno, hlives, .error e, st', ?_, hwf', hocc⟩)
      simp only [runOnServer, heq]

/-- The answer is written down in `invocations` only. -/
theorem respond_state (result : Except Error InvocationResult) :
    (respond Y invId result s).2.admission = s.admission ∧ (respond Y invId result s).2.qjs = s.qjs := by
  cases result with
  | ok r => exact ⟨rfl, rfl⟩
  | error e => exact ⟨rfl, rfl⟩

/-- An execution that was counted and not released shows. -/
theorem not_restored_of_accepted {s' : ServerState}
    (hcount : s'.admission.concurrent =
      s.admission.concurrent.replace tenant (Admission.counter s.admission.concurrent tenant + 1)) :
    ¬ Restored tenant s s' := by
  rintro ⟨h, -⟩
  rw [hcount, Admission.counter_replace, if_pos rfl] at h
  omega

/-- A tenant without room is answered 429; otherwise the execution is counted and the request goes on. -/
theorem invokeSync_cases (qualifier : Str) :
    (¬ s.admission.HasRoom tenant ∧ ∃ message, invokeSync Y env invId tenant fn qualifier body deadline s =
      (.ok (errorResponse Y 429 "RATE_OR_QUOTA_EXCEEDED" message), s)) ∨
    (s.admission.HasRoom tenant ∧ ∃ admission : Admission,
      invokeSync Y env invId tenant fn qualifier body deadline s =
        invokeAccepted Y env invId tenant fn qualifier body deadline { s with admission } ∧
      admission.concurrent =
        s.admission.concurrent.replace tenant (Admission.counter s.admission.concurrent tenant + 1)) := by
  unfold invokeSync
  obtain ⟨hfull, e, heq⟩ | ⟨hroom, hok, hcount, -⟩ := s.admission.acceptForExecution_cases tenant
  · have haccept : acceptForExecution tenant s = (.ok (.error e), s) := by
      simp only [acceptForExecution, heq]
    refine Or.inl ⟨hfull, e.toString, ?_⟩
    rw [Prog.bind_of_ok haccept]
    rfl
  · have haccept : acceptForExecution tenant s =
        (.ok (.ok ()), { s with admission := (s.admission.acceptForExecution tenant).2 }) := by
      rw [← hok]
      rfl
    refine Or.inr ⟨hroom, (s.admission.acceptForExecution tenant).2, ?_, hcount⟩
    rw [Prog.bind_of_ok haccept]
    rfl

/-- An invocation ends at the making of its id or at `admit`, with nothing changed; otherwise the request is counted and
its asynchronous or synchronous half runs. -/
theorem handleInvoke_cases (qualifier : Str) (async : Bool) :
    (∃ x, (InvocationId.ofStringExn (str "inv-" ++ decimal (s.invocations.length + 1)) : Outcome Empty InvocationId) =
        .raised x ∧
      handleInvoke Y env tenant fn qualifier async body s = (.raised x, s)) ∨
    ∃ id : InvocationId, (InvocationId.ofStringExn (str "inv-" ++ decimal (s.invocations.length + 1)) :
        Outcome Empty InvocationId) = .ok id ∧
      ((¬ s.admission.Admits tenant (env.nowMs + 5000) env.nowMs body.length ∧ ∃ e,
          s.admission.admitRequest tenant (env.nowMs + 5000) env.nowMs body.length = (.error e, s.admission) ∧
          handleInvoke Y env tenant fn qualifier async body s =
            (.ok (errorResponse Y 429 "RATE_OR_QUOTA_EXCEEDED" e.toString), s)) ∨
        (s.admission.Admits tenant (env.nowMs + 5000) env.nowMs body.length ∧ ∃ admission,
          s.admission.admitRequest tenant (env.nowMs + 5000) env.nowMs body.length = (.ok (), admission) ∧
          handleInvoke Y env tenant fn qualifier async body s =
            (if async then invokeAsync Y env id tenant fn qualifier body (env.nowMs + 5000)
              else invokeSync Y env id tenant fn qualifier body (env.nowMs + 5000)) { s with admission })) := by
  unfold handleInvoke
  rw [Prog.get_bind]
  cases hid : (InvocationId.ofStringExn (str "inv-" ++ decimal (s.invocations.length + 1)) :
      Outcome Empty InvocationId) with
  | error e => exact e.elim
  | raised x => exact Or.inl ⟨x, rfl, Prog.lift_raised_bind x _ s⟩
  | ok id =>
    refine Or.inr ⟨id, rfl, ?_⟩
    rw [Prog.lift_ok_bind]
    obtain ⟨hno, e, heq⟩ | ⟨hadmits, heq⟩ :=
      s.admission.admitRequest_cases tenant (env.nowMs + 5000) env.nowMs body.length
    · have hrefused : admitRequest tenant (env.nowMs + 5000) env.nowMs body.length s = (.ok (.error e), s) := by
        simp only [admitRequest, heq]
      refine Or.inl ⟨hno, e, heq, ?_⟩
      rw [Prog.bind_of_ok hrefused]
      rfl
    · refine Or.inr ⟨hadmits, _, heq, ?_⟩
      have hadmitted : admitRequest tenant (env.nowMs + 5000) env.nowMs body.length s = (.ok (.ok ()),
          { s with admission := (s.admission.admitRequest tenant (env.nowMs + 5000) env.nowMs body.length).2 }) := by
        simp only [admitRequest, heq]
      rw [Prog.bind_of_ok hadmitted, heq]
      rfl

/-- A counted execution is given back unless the qualifier is refused or `run_one` crashes or aborts. -/
theorem invokeAccepted_cases (hwf : s.qjs.handles.WF) (qualifier : Str) :
    (CrashesAccepted Y env invId tenant fn qualifier body deadline s ∧
      ¬ AbortsAccepted Y env invId tenant fn qualifier body deadline s ∧
      ∃ x qjs, invokeAccepted Y env invId tenant fn qualifier body deadline s = (.raised x, { s with qjs }) ∧
        qjs.handles.WF) ∨
    (¬ CrashesAccepted Y env invId tenant fn qualifier body deadline s ∧
      AbortsAccepted Y env invId tenant fn qualifier body deadline s ∧
      ∃ qjs, invokeAccepted Y env invId tenant fn qualifier body deadline s = (.raised .aborted, { s with qjs }) ∧
        qjs.handles.WF) ∨
    (¬ CrashesAccepted Y env invId tenant fn qualifier body deadline s ∧
      ¬ AbortsAccepted Y env invId tenant fn qualifier body deadline s ∧
      ∃ s', (invokeAccepted Y env invId tenant fn qualifier body deadline s).2 = s' ∧
        s'.admission = s.admission.release tenant ∧ s'.qjs.handles.WF ∧
        s'.qjs.handles.occupied = s.qjs.handles.occupied) := by
  unfold invokeAccepted CrashesAccepted AbortsAccepted
  cases hq : (Qualifier.ofStringExn qualifier : Outcome Empty Qualifier) with
  | error e => exact e.elim
  | raised x =>
    have hnone := Checked.ne_of_ofStringExn_raised hq
    exact Or.inl ⟨Or.inl hnone, fun ⟨q, hq', _⟩ => hnone q hq', x, s.qjs, Prog.lift_raised_bind x _ s, hwf⟩
  | ok q =>
    have hval : q.toStr = qualifier := Checked.ofStringExn_eq_ok.1 hq
    -- the qualifier is this one
    have hone : ∀ {P : Qualifier → Prop}, (∃ q' : Qualifier, q'.toStr = qualifier ∧ P q') ↔ P q := by
      intro P
      constructor
      · rintro ⟨q', hq', h⟩
        obtain rfl : q' = q := Checked.ext (hq'.trans hval.symm)
        exact h
      · exact fun h => ⟨q, hval, h⟩
    have hslug : ¬ ∀ q : Qualifier, q.toStr ≠ qualifier := fun h => h q hval
    simp only [hone, hslug, false_or]
    rw [Prog.lift_ok_bind]
    obtain ⟨hcrash, hlives, x, qjs, hrun, hwf'⟩ | ⟨hno, habort, qjs, hrun, hwf'⟩ |
      ⟨hno, hlives, r, qjs, hrun, hwf', hocc⟩ := runOnServer_cases Y env invId tenant fn body deadline hwf q
    · exact Or.inl ⟨hcrash, hlives, x, qjs, Prog.bind_of_raised hrun, hwf'⟩
    · exact Or.inr (Or.inl ⟨hno, habort, qjs, Prog.bind_of_raised hrun, hwf'⟩)
    · refine Or.inr (Or.inr ⟨hno, hlives, _, rfl, ?_⟩)
      rw [Prog.bind_of_ok hrun, Prog.modify_bind]
      obtain ⟨hadm, hqjs⟩ := respond_state Y invId
        (s := { s with qjs, admission := s.admission.release tenant }) r
      refine ⟨hadm, ?_, ?_⟩
      · rw [hqjs]
        exact hwf'
      · rw [hqjs]
        exact hocc

end

/-! ## The requests that leak -/

section
variable (Y : Yojson) (env : Env) (invId : InvocationId) (tenant : TenantId) (fn : FunctionName) (body : Str)
  {s : ServerState}

theorem invokeSync_restores_iff (hs : s.WF) (qualifier : Str) (deadline : Int64) :
    (¬ (s.admission.HasRoom tenant ∧ AbortsAccepted Y env invId tenant fn qualifier body deadline s) →
      Restored tenant s (invokeSync Y env invId tenant fn qualifier body deadline s).2) ↔
    ¬ (s.admission.HasRoom tenant ∧ CrashesAccepted Y env invId tenant fn qualifier body deadline s) := by
  obtain ⟨hfull, _, hsame⟩ | ⟨hroom, admission, heq, hcount⟩ :=
    invokeSync_cases Y env invId tenant fn body deadline (s := s) qualifier
  · rw [hsame]
    exact iff_of_true (fun _ => ⟨rfl, rfl⟩) fun h => hfull h.1
  rw [heq]
  obtain ⟨hleak, hlives, x, qjs, hraised, -⟩ | ⟨hno, hdies, -⟩ | ⟨hno, -, s', rfl, hadm, -, hocc⟩ :=
    invokeAccepted_cases Y env invId tenant fn body deadline (s := { s with admission }) hs.handles qualifier
  · rw [hraised]
    exact iff_of_false (fun h => not_restored_of_accepted tenant hcount (h fun hdies => hlives hdies.2))
      fun h => h ⟨hroom, hleak⟩
  · exact iff_of_true (fun h => absurd ⟨hroom, hdies⟩ h) fun h => hno h.2
  · refine iff_of_true (fun _ => ⟨?_, hocc⟩) fun h => hno h.2
    rw [hadm]
    exact Admission.counter_release_accepted hs.counts hcount

theorem invokeSync_dies (hs : s.WF) (qualifier : Str) (deadline : Int64)
    (h : s.admission.HasRoom tenant ∧ AbortsAccepted Y env invId tenant fn qualifier body deadline s) :
    (invokeSync Y env invId tenant fn qualifier body deadline s).1 = .raised .aborted := by
  obtain ⟨hfull, -⟩ | ⟨-, admission, heq, -⟩ := invokeSync_cases Y env invId tenant fn body deadline (s := s) qualifier
  · exact absurd h.1 hfull
  rw [heq]
  obtain ⟨-, hlives, -⟩ | ⟨-, -, qjs, haborted, -⟩ | ⟨-, hlives, -⟩ :=
    invokeAccepted_cases Y env invId tenant fn body deadline (s := { s with admission }) hs.handles qualifier
  · exact absurd h.2 hlives
  · rw [haborted]
  · exact absurd h.2 hlives

/-- An invocation that dies aborts, and any other gives back what it took exactly when it does not leak. -/
theorem handleInvoke_restores_iff (hs : s.WF) (qualifier : Str) :
    (Dies Y env tenant fn qualifier body s →
      (handleInvoke Y env tenant fn qualifier false body s).1 = .raised .aborted) ∧
    ((¬ Dies Y env tenant fn qualifier body s →
        Restored tenant s (handleInvoke Y env tenant fn qualifier false body s).2) ↔
      ¬ Leaks Y env tenant fn qualifier body s) := by
  simp only [Leaks, Dies]
  obtain ⟨x, hid, heq⟩ | ⟨id, hid, ⟨-, e, hrefused, heq⟩ | ⟨-, admission, hadmitted, heq⟩⟩ :=
    handleInvoke_cases Y env tenant fn body (s := s) qualifier false
  · have hnoid := Checked.ne_of_ofStringExn_raised hid
    rw [heq]
    refine ⟨?_, iff_of_true (fun _ => ⟨rfl, rfl⟩) ?_⟩
    · rintro ⟨-, -, inv, hinv, -⟩
      exact absurd hinv (hnoid inv)
    · rintro ⟨-, -, inv, hinv, -⟩
      exact hnoid inv hinv
  · rw [heq, hrefused]
    refine ⟨?_, iff_of_true (fun _ => ⟨rfl, rfl⟩) ?_⟩
    · rintro ⟨hok, -⟩
      cases hok
    · rintro ⟨hok, -⟩
      cases hok
  · have hval := Checked.ofStringExn_eq_ok.1 hid
    have hroom := s.admission.hasRoom_admitRequest tenant (env.nowMs + 5000) env.nowMs body.length
    have hcount := s.admission.concurrent_admitRequest tenant (env.nowMs + 5000) env.nowMs body.length
    have hcounts := Admission.countsNonneg_admitRequest hs.counts tenant (env.nowMs + 5000) env.nowMs body.length
    simp only [hadmitted] at hroom hcount hcounts
    -- admitting leaves the concurrent counts alone, so both states on entry will do
    have hentry : ∀ s', Restored tenant s s' ↔ Restored tenant { s with admission } s' := by
      intro s'
      simp only [Restored, hcount]
    -- … and the id is the one that was made
    have hone : ∀ {P : InvocationId → Prop}, ((s.admission.admitRequest tenant (env.nowMs + 5000) env.nowMs
          body.length).1 = .ok () ∧ s.admission.HasRoom tenant ∧
          ∃ inv : InvocationId, inv.toStr = str "inv-" ++ decimal (s.invocations.length + 1) ∧ P inv) ↔
        admission.HasRoom tenant ∧ P id := by
      intro P
      rw [hadmitted, hroom]
      constructor
      · rintro ⟨-, h, inv, hinv, hP⟩
        obtain rfl : inv = id := Checked.ext (hinv.trans hval.symm)
        exact ⟨h, hP⟩
      · rintro ⟨h, hP⟩
        exact ⟨rfl, h, id, hval, hP⟩
    rw [heq, hentry, hone, hone]
    have hs' : ServerState.WF { s with admission } := ⟨hs.handles, hcounts⟩
    exact ⟨invokeSync_dies Y env id tenant fn body hs' qualifier (env.nowMs + 5000),
      invokeSync_restores_iff Y env id tenant fn body hs' qualifier (env.nowMs + 5000)⟩

end

/-! ## The states of a server -/

theorem wf_makeState {config : Config} {fs : FileSystem} {s : ServerState} (hs : makeState config fs = .ok s) :
    s.WF := by
  obtain ⟨store, -, hstate⟩ := Outcome.bind_eq_ok.1 hs
  cases hstate
  exact ⟨Qjs.wf_empty, fun tenant => le_of_eq (Admission.counter_empty tenant).symm⟩

theorem maintains_wf_admitRequest (t : TenantId) (deadline now : Int64) (bytes : Int) :
    Prog.Maintains ServerState.WF (admitRequest t deadline now bytes) :=
  fun _ hs => ⟨hs.handles, Admission.countsNonneg_admitRequest hs.counts t deadline now bytes⟩

/-- A request leaves the counts and the table well formed, also when it leaks. -/
theorem maintains_wf_handleInvoke (Y : Yojson) (env : Env) (t : TenantId) (f : FunctionName) (q : Str) (async : Bool)
    (body : Str) : Prog.Maintains ServerState.WF (handleInvoke Y env t f q async body) := by
  have hpure : ∀ r : Response, Prog.Maintains ServerState.WF (pure r : Handler Response) := Prog.maintains_pure _
  refine Prog.Maintains.bind (fun s hs => hs) fun state => ?_
  refine Prog.Maintains.bind (Prog.maintains_lift _ _) fun inv => ?_
  refine Prog.Maintains.bind (maintains_wf_admitRequest _ _ _ _) fun admitted => ?_
  refine maintains_onResult (fun _ => hpure _) fun _ _ => ?_
  split
  · refine Prog.Maintains.bind (Prog.maintains_lift _ _) fun q => ?_
    exact Prog.Maintains.bind (fun s hs => ⟨hs.handles, hs.counts⟩) fun _ => hpure _
  · refine Prog.Maintains.bind
      (fun s hs => ⟨hs.handles, Admission.countsNonneg_acceptForExecution hs.counts t⟩) fun accepted => ?_
    refine maintains_onResult (fun _ => hpure _) fun _ _ s hs => ?_
    obtain ⟨-, -, x, qjs, hraised, hwf⟩ | ⟨-, -, qjs, hraised, hwf⟩ | ⟨-, -, s', rfl, hadm, hwf, -⟩ :=
      invokeAccepted_cases Y env inv t f body (env.nowMs + 5000) hs.handles q
    · rw [hraised]
      exact ⟨hwf, hs.counts⟩
    · rw [hraised]
      exact ⟨hwf, hs.counts⟩
    · refine ⟨hwf, ?_⟩
      rw [hadm]
      exact Admission.countsNonneg_release hs.counts t

theorem maintains_wf_callback (Y : Yojson) (env : Env) (request : HttpRequest) :
    Prog.Maintains ServerState.WF (callback Y env request) := by
  have hframe : ∀ (s : ServerState) registry fs, s.WF → { s with registry, fs }.WF :=
    fun _ _ _ hs => ⟨hs.handles, hs.counts⟩
  exact maintains_callback (fun t f => maintains_handleDeploy_frame hframe t f request.body)
    (fun t f al => maintains_handleMoveAlias_frame hframe t f al request.body)
    fun t f q async => maintains_wf_handleInvoke Y env t f q async request.body

/-- **A synchronous invocation gives back what it took exactly when it does not leak**, unless it dies: then it aborts,
and there is no exit. The states the statement is about include every state that requests can bring a server to. -/
theorem invoke_restores_iff (Y : Yojson) :
    (∀ config fs s₀ requests, makeState config fs = .ok s₀ → (handleAll Y s₀ requests).WF) ∧
    ∀ s : ServerState, s.WF → ∀ env tenant functionName qualifier body,
      (Dies Y env tenant functionName qualifier body s →
        (handleInvoke Y env tenant functionName qualifier false body s).1 = .raised .aborted) ∧
      ((¬ Dies Y env tenant functionName qualifier body s →
          Restored tenant s (handleInvoke Y env tenant functionName qualifier false body s).2) ↔
        ¬ Leaks Y env tenant functionName qualifier body s) := by
  constructor
  · intro config fs s₀ requests hs₀
    exact handleAll_induction (maintains_wf_callback Y) (wf_makeState hs₀) requests
  · intro s hs env tenant fn qualifier body
    exact handleInvoke_restores_iff Y env tenant fn body hs qualifier

open MirageLambda.Bundle (sampleTenant sampleFunction sampleYojson)

/-- An alias that is not there: `run_one` answers an error, both are given back. -/
theorem invoke_restores_unknown_alias :
    Restored sampleTenant sampleState
      (handleInvoke sampleYojson sampleEnv sampleTenant sampleFunction (str "prod") false [] sampleState).2 := by
  have hnone : ∀ q d, sampleState.registry.resolve sampleTenant sampleFunction q ≠ .ok d := by
    intro q d hres
    obtain ⟨al, -, hal⟩ := Registry.resolve_eq_ok.1 hres
    cases hal
  refine ((invoke_restores_iff sampleYojson).2 sampleState (wf_makeState makeState_sample) sampleEnv
    sampleTenant sampleFunction (str "prod") []).2.2 ?_ ?_
  · rintro ⟨-, -, inv, -, hbad | ⟨q, -, d, hres, -⟩⟩
    · exact hbad ⟨str "prod", by decide⟩ rfl
    · exact hnone q d hres
  · rintro ⟨-, -, inv, -, q, -, bundle, -, -, -, -, hfetch, -⟩
    obtain ⟨d, -, hres, -⟩ := fetchBundle_eq_ok.1 hfetch
    exact hnone q d hres

/-- A qualifier with a capital letter: the tenant's count stays at one. -/
theorem invoke_leaks_bad_qualifier :
    makeState (defaultConfig (str "/srv")) ⟨fun _ => none⟩ = .ok sampleState ∧
      Admission.counter sampleState.admission.concurrent sampleTenant = 0 ∧
      Admission.counter (handleInvoke sampleYojson sampleEnv sampleTenant sampleFunction (str "Prod") false []
        sampleState).2.admission.concurrent sampleTenant = 1 := by
  refine ⟨makeState_sample, rfl, ?_⟩
  decide +kernel

end MirageLambda
