import MirageLambda.Control.Authorization
import MirageLambda.Control.InvocationIds
import MirageLambda.Control.Quotas
import MirageLambda.Control.Refusals

/-!
# The counters of a server over its life

Nothing but invocations moves the three counters of a tenant, and no invocation moves one of them down below what
it found: the bytes grow with every request that `admit` takes, the queue with every one that is asynchronous or
refused late, the executions with every one that leaks. So after any run from a new server each counter is a tally
of requests, and stays within the default quota (`counters_are_tallies`). A counter that has reached its quota stays
there, and what it refuses is refused from then on (`lockouts_are_permanent`).
-/

namespace MirageLambda
open OCaml Qjs

/-- `admit` takes the request. -/
structure Taken (s : ServerState) (i : InvokeRequest) : Prop where
  id : ∃ invocationId : InvocationId, invocationId.toStr = str "inv-" ++ decimal (s.invocations.length + 1)
  admits : s.admission.Admits i.tenant (i.env.nowMs + 5000) i.env.nowMs i.body.length

/-- It stays in the queue: it is asynchronous, or the tenant has no room. -/
def Stays (s : ServerState) (i : InvokeRequest) : Prop :=
  Taken s i ∧ (i.async = true ∨ ¬ s.admission.HasRoom i.tenant)

/-- It is synchronous and keeps an execution: it leaks, or it is the end of the process. -/
def Keeps (Y : Yojson) (s : ServerState) (i : InvokeRequest) : Prop :=
  i.async = false ∧ (Leaks Y i.env i.tenant i.functionName i.qualifier i.body s ∨
    Dies Y i.env i.tenant i.functionName i.qualifier i.body s)

/-- Only a request with room keeps one. -/
theorem Keeps.hasRoom {Y : Yojson} {s : ServerState} {i : InvokeRequest} (h : Keeps Y s i) :
    s.admission.HasRoom i.tenant := by
  obtain ⟨-, ⟨-, hroom, -⟩ | ⟨-, hroom, -⟩⟩ := h
  · exact hroom
  · exact hroom

/-- Only a request that was taken keeps one. -/
theorem Keeps.taken {Y : Yojson} {s : ServerState} {i : InvokeRequest} (h : Keeps Y s i) : Taken s i := by
  obtain ⟨hok, hid⟩ : (s.admission.admitRequest i.tenant (i.env.nowMs + 5000) i.env.nowMs i.body.length).1 = .ok () ∧
      ∃ invocationId : InvocationId, invocationId.toStr = str "inv-" ++ decimal (s.invocations.length + 1) := by
    obtain ⟨-, ⟨hok, -, id, hid, -⟩ | ⟨hok, -, id, hid, -⟩⟩ := h
    · exact ⟨hok, id, hid⟩
    · exact ⟨hok, id, hid⟩
  refine ⟨hid, ?_⟩
  obtain ⟨-, e, heq⟩ | ⟨hadmits, -⟩ :=
    s.admission.admitRequest_cases i.tenant (i.env.nowMs + 5000) i.env.nowMs i.body.length
  · rw [heq] at hok
    cases hok
  · exact hadmits

namespace InvokeRequest

variable (Y : Yojson) (i : InvokeRequest) (s : ServerState)

/-- The counts once `admit` has taken the request. -/
def admitted : Admission := (s.admission.admitRequest i.tenant (i.env.nowMs + 5000) i.env.nowMs i.body.length).2

theorem invokeAsync_admission (id : InvocationId) (fn : FunctionName) (q body : Str) (d : Int64) :
    (invokeAsync Y i.env id i.tenant fn q body d s).2.admission = s.admission := by
  unfold invokeAsync
  cases (Qualifier.ofStringExn q : Outcome Empty Qualifier) with
  | ok q' => rfl
  | error e => exact e.elim
  | raised x => rfl

/-- With room the execution is counted, and given back unless the request leaks or dies. -/
theorem invokeSync_admission (hwf : s.qjs.handles.WF) (id : InvocationId) (fn : FunctionName) (q body : Str) (d : Int64) :
    (¬ s.admission.HasRoom i.tenant ∧ (invokeSync Y i.env id i.tenant fn q body d s).2 = s) ∨
    (s.admission.HasRoom i.tenant ∧
      (CrashesAccepted Y i.env id i.tenant fn q body d s ∨ AbortsAccepted Y i.env id i.tenant fn q body d s) ∧
      (invokeSync Y i.env id i.tenant fn q body d s).2.admission = (s.admission.acceptForExecution i.tenant).2) ∨
    (s.admission.HasRoom i.tenant ∧
      ¬ (CrashesAccepted Y i.env id i.tenant fn q body d s ∨ AbortsAccepted Y i.env id i.tenant fn q body d s) ∧
      (invokeSync Y i.env id i.tenant fn q body d s).2.admission =
        ((s.admission.acceptForExecution i.tenant).2).release i.tenant) := by
  unfold invokeSync
  obtain ⟨hfull, e, heq⟩ | ⟨hroom, hok, -⟩ := s.admission.acceptForExecution_cases i.tenant
  · have haccept : acceptForExecution i.tenant s = (.ok (.error e), s) := by
      simp only [acceptForExecution, heq]
    refine Or.inl ⟨hfull, ?_⟩
    rw [Prog.bind_of_ok haccept]
    rfl
  · have haccept : acceptForExecution i.tenant s =
        (.ok (.ok ()), { s with admission := (s.admission.acceptForExecution i.tenant).2 }) := by
      rw [← hok]
      rfl
    rw [Prog.bind_of_ok haccept]
    obtain ⟨hleak, -, x, qjs, hraised, -⟩ | ⟨-, hdies, qjs, hraised, -⟩ | ⟨hno, hlives, s', heq, hadm, -⟩ :=
      invokeAccepted_cases Y i.env id i.tenant fn body d
        (s := { s with admission := (s.admission.acceptForExecution i.tenant).2 }) hwf q
    · refine Or.inr (Or.inl ⟨hroom, Or.inl hleak, ?_⟩)
      show (invokeAccepted Y i.env id i.tenant fn q body d _).2.admission = _
      rw [hraised]
    · refine Or.inr (Or.inl ⟨hroom, Or.inr hdies, ?_⟩)
      show (invokeAccepted Y i.env id i.tenant fn q body d _).2.admission = _
      rw [hraised]
    · refine Or.inr (Or.inr ⟨hroom, fun h => h.elim hno hlives, ?_⟩)
      show (invokeAccepted Y i.env id i.tenant fn q body d _).2.admission = _
      rw [heq, hadm]

/-- **Where an invocation ends up.** It is not taken and changes nothing; it stays in the queue; it keeps its execution;
or that is given back. -/
theorem handle_admission (hwf : s.qjs.handles.WF) :
    (¬ Taken s i ∧ (i.handle Y s).2 = s) ∨
    (Stays s i ∧ ¬ Keeps Y s i ∧ (i.handle Y s).2.admission = i.admitted s) ∨
    (Taken s i ∧ ¬ Stays s i ∧ Keeps Y s i ∧
      (i.handle Y s).2.admission = ((i.admitted s).acceptForExecution i.tenant).2) ∨
    (Taken s i ∧ ¬ Stays s i ∧ ¬ Keeps Y s i ∧ s.admission.HasRoom i.tenant ∧
      (i.handle Y s).2.admission = (((i.admitted s).acceptForExecution i.tenant).2).release i.tenant) := by
  unfold handle
  obtain ⟨x, hid, heq⟩ | ⟨id, hid, ⟨hno, e, -, heq⟩ | ⟨hadmits, admission, hadmitted, heq⟩⟩ :=
    handleInvoke_cases Y i.env i.tenant i.functionName i.body (s := s) i.qualifier i.async
  · refine Or.inl ⟨?_, by rw [heq]⟩
    rintro ⟨⟨id, hval⟩, -⟩
    exact Checked.ne_of_ofStringExn_raised hid id hval
  · exact Or.inl ⟨fun h => hno h.admits, by rw [heq]⟩
  · have hval := Checked.ofStringExn_eq_ok.1 hid
    have htaken : Taken s i := ⟨⟨id, hval⟩, hadmits⟩
    have hadm : i.admitted s = admission := by rw [admitted, hadmitted]
    have hroom := s.admission.hasRoom_admitRequest i.tenant (i.env.nowMs + 5000) i.env.nowMs i.body.length
    simp only [hadmitted] at hroom
    rw [heq, hadm]
    cases hasync : i.async with
    | true =>
      refine Or.inr (Or.inl ⟨⟨htaken, Or.inl hasync⟩, fun h => ?_, ?_⟩)
      · exact Bool.false_ne_true (h.1.symm.trans hasync)
      · exact invokeAsync_admission Y i { s with admission } id i.functionName i.qualifier i.body _
    | false =>
      -- the leak is judged at the state after `admit`, which has the same room
      have hleaks : ∀ hhas : s.admission.HasRoom i.tenant, Keeps Y s i ↔
          (CrashesAccepted Y i.env id i.tenant i.functionName i.qualifier i.body (i.env.nowMs + 5000) s ∨
            AbortsAccepted Y i.env id i.tenant i.functionName i.qualifier i.body (i.env.nowMs + 5000) s) := by
        intro hhas
        constructor
        · rintro ⟨-, ⟨-, -, id', hid', hleak⟩ | ⟨-, -, id', hid', hdies⟩⟩
          · obtain rfl : id' = id := Checked.ext (hid'.trans hval.symm)
            exact Or.inl hleak
          · obtain rfl : id' = id := Checked.ext (hid'.trans hval.symm)
            exact Or.inr hdies
        · rintro (hleak | hdies)
          · exact ⟨hasync, Or.inl ⟨by rw [hadmitted], hhas, id, hval, hleak⟩⟩
          · exact ⟨hasync, Or.inr ⟨by rw [hadmitted], hhas, id, hval, hdies⟩⟩
      obtain ⟨hfull, hsame⟩ | ⟨hhas, hleak, hend⟩ | ⟨hhas, hno, hend⟩ := invokeSync_admission Y i
        { s with admission } hwf id i.functionName i.qualifier i.body (i.env.nowMs + 5000)
      · have hfull' : ¬ s.admission.HasRoom i.tenant := fun h => hfull (hroom.2 h)
        refine Or.inr (Or.inl ⟨⟨htaken, Or.inr hfull'⟩, fun h => hfull' h.hasRoom, ?_⟩)
        show (invokeSync Y i.env id i.tenant i.functionName i.qualifier i.body _ _).2.admission = admission
        rw [hsame]
      · have hhas' := hroom.1 hhas
        refine Or.inr (Or.inr (Or.inl ⟨htaken, ?_, (hleaks hhas').2 hleak, hend⟩))
        rintro ⟨-, hasync' | hfull⟩
        · rw [hasync] at hasync'
          cases hasync'
        · exact hfull hhas'
      · have hhas' := hroom.1 hhas
        refine Or.inr (Or.inr (Or.inr ⟨htaken, ?_, fun h => hno ((hleaks hhas').1 h), hhas', hend⟩))
        rintro ⟨-, hasync' | hfull⟩
        · rw [hasync] at hasync'
          cases hasync'
        · exact hfull hhas'

end InvokeRequest

/-! ## What the counts become -/

namespace Admission

variable {t : Admission} {tenant : TenantId}

/-- The three counts of a tenant. -/
@[ext] structure Counts where
  queued : Int
  bytes : Int
  concurrent : Int
deriving DecidableEq

def countsOf (t : Admission) (u : TenantId) : Counts :=
  ⟨counter t.queued u, counter t.queuedBytes u, counter t.concurrent u⟩

namespace Counts

/-- `admit` takes a request of `b` bytes. -/
def take (c : Counts) (b : Int) : Counts := { c with queued := c.queued + 1, bytes := wrap 63 (c.bytes + b) }

/-- `accept_for_execution` takes one out of a queue that is not empty. -/
def start (c : Counts) : Counts := { c with queued := c.queued - 1, concurrent := c.concurrent + 1 }

/-- `release` ends one of the executions. -/
def finish (c : Counts) : Counts := { c with concurrent := c.concurrent - 1 }

theorem finish_start_take (c : Counts) (b : Int) : (c.take b).start.finish = { c with bytes := wrap 63 (c.bytes + b) } := by
  simp [take, start, finish]

end Counts

theorem countsOf_admitRequest {d n : Int64} {b : Int} (h : t.Admits tenant d n b) (u : TenantId) :
    (t.admitRequest tenant d n b).2.countsOf u = if u = tenant then (t.countsOf u).take b else t.countsOf u := by
  obtain ⟨hno, -⟩ | ⟨-, heq⟩ := t.admitRequest_cases tenant d n b
  · exact absurd h hno
  · rw [heq]
    simp only [countsOf, Counts.take, counter_replace]
    split
    · rename_i hu
      rw [hu]
    · rfl

theorem countsOf_acceptForExecution (hroom : t.HasRoom tenant) (hqueued : 0 < (t.countsOf tenant).queued) (u : TenantId) :
    (t.acceptForExecution tenant).2.countsOf u = if u = tenant then (t.countsOf u).start else t.countsOf u := by
  obtain ⟨hfull, -⟩ | ⟨-, -, hcount, hq, hbytes⟩ := t.acceptForExecution_cases tenant
  · exact absurd hroom hfull
  · simp only [countsOf, Counts.start, hcount, hq, hbytes, counter_replace]
    by_cases hu : u = tenant
    · subst hu
      rw [if_pos rfl, if_pos ⟨rfl, hqueued⟩, if_pos rfl]
    · rw [if_neg hu, if_neg (fun h => hu h.1), if_neg hu]

theorem countsOf_release (hpos : 0 < (t.countsOf tenant).concurrent) (u : TenantId) :
    (t.release tenant).countsOf u = if u = tenant then (t.countsOf u).finish else t.countsOf u := by
  have hothers : (t.release tenant).queued = t.queued ∧ (t.release tenant).queuedBytes = t.queuedBytes := by
    unfold release
    simp only []
    split
    · exact ⟨rfl, rfl⟩
    · exact ⟨rfl, rfl⟩
  simp only [countsOf, Counts.finish, hothers.1, hothers.2, counter_release]
  by_cases hu : u = tenant
  · subst hu
    rw [if_pos ⟨rfl, hpos⟩, if_pos rfl]
  · rw [if_neg (fun h => hu h.1), if_neg hu]

end Admission

/-- No count is negative. -/
def Admission.Nonneg (t : Admission) : Prop := ∀ u, 0 ≤ (t.countsOf u).queued ∧ 0 ≤ (t.countsOf u).concurrent

namespace InvokeRequest

variable (Y : Yojson) (i : InvokeRequest) {s : ServerState}

/-- **What an invocation does to the counts**: nothing, or one of three changes, to those of its own tenant. -/
theorem countsOf_handle (hwf : s.qjs.handles.WF) (hs : s.admission.Nonneg) :
    ∃ change : Admission.Counts → Admission.Counts,
      (∀ u, (i.handle Y s).2.admission.countsOf u =
        if u = i.tenant then change (s.admission.countsOf u) else s.admission.countsOf u) ∧
      ((¬ Taken s i ∧ ¬ Stays s i ∧ ¬ Keeps Y s i ∧ change = id) ∨
        (Taken s i ∧ Stays s i ∧ ¬ Keeps Y s i ∧ change = fun c => c.take i.body.length) ∨
        (Taken s i ∧ ¬ Stays s i ∧ Keeps Y s i ∧ change = fun c => (c.take i.body.length).start) ∨
        (Taken s i ∧ ¬ Stays s i ∧ ¬ Keeps Y s i ∧ change = fun c => (c.take i.body.length).start.finish)) := by
  obtain ⟨hqueued, hconcurrent⟩ := hs i.tenant
  have hadmitted : Taken s i → ∀ u, (i.admitted s).countsOf u =
      if u = i.tenant then (s.admission.countsOf u).take i.body.length else s.admission.countsOf u :=
    fun h => Admission.countsOf_admitRequest h.admits
  have hstarted : Taken s i → s.admission.HasRoom i.tenant → ∀ u,
      ((i.admitted s).acceptForExecution i.tenant).2.countsOf u =
        if u = i.tenant then ((s.admission.countsOf u).take i.body.length).start else s.admission.countsOf u := by
    intro htaken hroom u
    have hroom' : (i.admitted s).HasRoom i.tenant := (s.admission.hasRoom_admitRequest i.tenant _ _ _).2 hroom
    have hpos : 0 < ((i.admitted s).countsOf i.tenant).queued := by
      rw [hadmitted htaken, if_pos rfl]
      exact Int.lt_add_one_of_le hqueued
    rw [Admission.countsOf_acceptForExecution hroom' hpos, hadmitted htaken]
    split
    · rfl
    · rfl
  obtain ⟨hno, hend⟩ | ⟨hstays, hkeeps, hend⟩ | ⟨htaken, hstays, hkeeps, hend⟩ |
      ⟨htaken, hstays, hkeeps, hroom, hend⟩ := i.handle_admission Y s hwf
  · refine ⟨id, fun u => ?_, Or.inl ⟨hno, fun h => hno h.1, fun h => hno h.taken, rfl⟩⟩
    rw [hend]
    split
    · rfl
    · rfl
  · refine ⟨_, fun u => ?_, Or.inr (Or.inl ⟨hstays.1, hstays, hkeeps, rfl⟩)⟩
    rw [hend, hadmitted hstays.1]
  · refine ⟨_, fun u => ?_, Or.inr (Or.inr (Or.inl ⟨htaken, hstays, hkeeps, rfl⟩))⟩
    rw [hend, hstarted htaken hkeeps.hasRoom]
  · refine ⟨_, fun u => ?_, Or.inr (Or.inr (Or.inr ⟨htaken, hstays, hkeeps, rfl⟩))⟩
    have hpos : 0 < (((i.admitted s).acceptForExecution i.tenant).2.countsOf i.tenant).concurrent := by
      rw [hstarted htaken hroom, if_pos rfl]
      exact Int.lt_add_one_of_le hconcurrent
    rw [hend, Admission.countsOf_release hpos, hstarted htaken hroom]
    split
    · rfl
    · rfl

theorem quotas_handle (s : ServerState) (hwf : s.qjs.handles.WF) :
    (i.handle Y s).2.admission.quotas = s.admission.quotas := by
  have hadmitted : (i.admitted s).quotas = s.admission.quotas := by
    rw [admitted, Admission.quotas_admitRequest]
  obtain ⟨-, hend⟩ | ⟨-, -, hend⟩ | ⟨-, -, -, hend⟩ | ⟨-, -, -, -, hend⟩ := i.handle_admission Y s hwf
  · rw [hend]
  · rw [hend, hadmitted]
  · rw [hend, Admission.quotas_acceptForExecution, hadmitted]
  · rw [hend, Admission.quotas_release, Admission.quotas_acceptForExecution, hadmitted]

end InvokeRequest

/-! ## Requests -/

/-- The invocation that a request asks for. -/
def invocationOf (config : Config) (r : HttpRequest × Env) : Option InvokeRequest :=
  match callOf config r.1 with
  | some (.invoke t f q async) =>
    some { env := r.2, tenant := t, functionName := f, qualifier := q, async, body := r.1.body }
  | _ => none

/-- A request is an invocation, or it leaves the counts and the engines alone. -/
theorem after_cases (Y : Yojson) (s : ServerState) (r : HttpRequest × Env) :
    (∃ i, invocationOf s.config r = some i ∧ callback Y r.2 r.1 s = i.handle Y s) ∨
    (invocationOf s.config r = none ∧ (after Y s r).admission = s.admission ∧ (after Y s r).qjs = s.qjs ∧
      (after Y s r).scheduler = s.scheduler ∧ (after Y s r).invocations = s.invocations) := by
  unfold invocationOf after
  cases hcall : callOf s.config r.1 with
  | none =>
    obtain ⟨response, heq⟩ := callback_of_no_call Y r.2 hcall
    rw [heq s rfl]
    exact Or.inr ⟨rfl, rfl, rfl, rfl, rfl⟩
  | some call =>
    rw [callback_of_call hcall]
    cases call with
    | invoke t f q async => exact Or.inl ⟨_, rfl, rfl⟩
    | deploy t f =>
      exact Or.inr ⟨rfl, maintains_handleDeploy_frame (I := fun s' : ServerState => s'.admission = s.admission ∧
        s'.qjs = s.qjs ∧ s'.scheduler = s.scheduler ∧ s'.invocations = s.invocations) (fun _ _ _ hs => hs) t f r.1.body
        s ⟨rfl, rfl, rfl, rfl⟩⟩
    | moveAlias t f a =>
      exact Or.inr ⟨rfl, maintains_handleMoveAlias_frame (I := fun s' : ServerState => s'.admission = s.admission ∧
        s'.qjs = s.qjs ∧ s'.scheduler = s.scheduler ∧ s'.invocations = s.invocations) (fun _ _ _ hs => hs) t f a r.1.body
        s ⟨rfl, rfl, rfl, rfl⟩⟩

/-! ## The tallies -/

/-- The counts stay within the default quota, and the engines and the executions are well formed. -/
structure WithinQuota (s : ServerState) : Prop where
  wf : s.WF
  quotas : s.admission.quotas = .empty
  queued : ∀ u, 0 ≤ (s.admission.countsOf u).queued ∧ (s.admission.countsOf u).queued ≤ 1000
  bytes : ∀ u, 0 ≤ (s.admission.countsOf u).bytes ∧ (s.admission.countsOf u).bytes ≤ 64 * 1024 * 1024
  concurrent : ∀ u, 0 ≤ (s.admission.countsOf u).concurrent ∧ (s.admission.countsOf u).concurrent ≤ 10

namespace WithinQuota

variable {s : ServerState}

theorem nonneg (h : WithinQuota s) : s.admission.Nonneg := fun u => ⟨(h.queued u).1, (h.concurrent u).1⟩

theorem quotaFor (h : WithinQuota s) (u : TenantId) : s.admission.quotaFor u = Admission.defaultQuota := by
  rw [Admission.quotaFor, h.quotas]
  rfl

/-- A body that OCaml can hold does not make the sum of bytes wrap. -/
theorem take_bytes (h : WithinQuota s) {i : InvokeRequest} (hlen : (i.body.length : Int) ≤ maxStringLength) :
    ((s.admission.countsOf i.tenant).take i.body.length).bytes =
      (s.admission.countsOf i.tenant).bytes + i.body.length := by
  obtain ⟨hlow, hhigh⟩ := h.bytes i.tenant
  refine (wrap_eq_self_iff (by decide)).2 ?_
  unfold maxStringLength at hlen
  constructor
  · norm_num
    omega
  · norm_num
    omega

/-- What a taken request finds. -/
theorem room (h : WithinQuota s) {i : InvokeRequest} (hlen : (i.body.length : Int) ≤ maxStringLength) (ht : Taken s i) :
    (s.admission.countsOf i.tenant).queued < 1000 ∧
      (s.admission.countsOf i.tenant).bytes + i.body.length ≤ 64 * 1024 * 1024 := by
  have hqueue := ht.admits.queue
  have hbytes := ht.admits.bytes
  rw [h.quotaFor] at hqueue hbytes
  refine ⟨hqueue, ?_⟩
  rw [← h.take_bytes hlen]
  exact hbytes

end WithinQuota

open Classical in
/-- The weight of a request for a tenant: that of the invocation, if it is the tenant's and meets the condition. -/
noncomputable def weightIf (config : Config) (u : TenantId) (P : InvokeRequest → Prop) (w : InvokeRequest → Int)
    (r : HttpRequest × Env) : Int :=
  match invocationOf config r with
  | some i => if i.tenant = u ∧ P i then w i else 0
  | none => 0

/-- A body that is an OCaml string. -/
def BodyFits (r : HttpRequest × Env) : Prop := (r.1.body.length : Int) ≤ maxStringLength

theorem BodyFits.invocation {config : Config} {r : HttpRequest × Env} (h : BodyFits r) {i : InvokeRequest}
    (hi : invocationOf config r = some i) : (i.body.length : Int) ≤ maxStringLength := by
  unfold invocationOf at hi
  split at hi
  · cases hi
    exact h
  · cases hi

/-- **The counts of every tenant after a request.** -/
theorem WithinQuota.counts_after {Y : Yojson} {s : ServerState} {r : HttpRequest × Env} (h : WithinQuota s)
    (hfits : BodyFits r) (u : TenantId) :
    (after Y s r).admission.countsOf u =
      { queued := (s.admission.countsOf u).queued + weightIf s.config u (Stays s) (fun _ => 1) r
        bytes := (s.admission.countsOf u).bytes + weightIf s.config u (Taken s) (fun i => i.body.length) r
        concurrent := (s.admission.countsOf u).concurrent + weightIf s.config u (Keeps Y s) (fun _ => 1) r } := by
  unfold weightIf
  obtain ⟨i, hi, heq⟩ | ⟨hi, hadm, -⟩ := after_cases Y s r
  · have hlen := hfits.invocation hi
    have hbytes := h.take_bytes hlen
    obtain ⟨change, hchange, hkind⟩ := i.countsOf_handle Y h.wf.handles h.nonneg
    rw [after, heq, hchange, hi]
    by_cases hu : u = i.tenant
    · subst hu
      simp only [if_true, true_and]
      obtain ⟨ht, hs, hk, rfl⟩ | ⟨ht, hs, hk, rfl⟩ | ⟨ht, hs, hk, rfl⟩ | ⟨ht, hs, hk, rfl⟩ := hkind
      · simp [ht, hs, hk]
      · simp only [ht, hs, hk, and_true, and_false, if_true, if_false, add_zero]
        rw [← hbytes]
        rfl
      · simp only [ht, hs, hk, and_true, and_false, if_true, if_false, add_zero]
        rw [← hbytes]
        simp [Admission.Counts.take, Admission.Counts.start]
      · simp only [ht, hs, hk, and_true, and_false, if_true, if_false, add_zero]
        rw [← hbytes]
        exact Admission.Counts.finish_start_take _ _
    · have hu' : ¬ i.tenant = u := fun heq => hu heq.symm
      simp [hu, hu']
  · rw [hadm, hi]
    simp

/-- A weight counts at most what the condition leaves room for. -/
theorem weightIf_le {config : Config} {u : TenantId} {P : InvokeRequest → Prop} {w : InvokeRequest → Int}
    {r : HttpRequest × Env} {room : Int} (hroom : 0 ≤ room)
    (h : ∀ i, invocationOf config r = some i → i.tenant = u → P i → w i ≤ room) : weightIf config u P w r ≤ room := by
  unfold weightIf
  cases hi : invocationOf config r with
  | none => exact hroom
  | some i =>
    simp only []
    split
    · rename_i hweighs
      exact h i hi hweighs.1 hweighs.2
    · exact hroom

theorem weightIf_nonneg (config : Config) (u : TenantId) (P : InvokeRequest → Prop) {w : InvokeRequest → Int}
    (r : HttpRequest × Env) (hw : ∀ i, 0 ≤ w i) : 0 ≤ weightIf config u P w r := by
  unfold weightIf
  split
  · split
    · exact hw _
    · exact le_refl 0
  · exact le_refl 0

/-- **The quota holds after every request.** -/
theorem WithinQuota.after {Y : Yojson} {s : ServerState} {r : HttpRequest × Env} (h : WithinQuota s)
    (hfits : BodyFits r) : WithinQuota (after Y s r) := by
  have hone : ∀ i : InvokeRequest, (0 : Int) ≤ 1 := fun _ => by decide
  have hlength : ∀ i : InvokeRequest, (0 : Int) ≤ i.body.length := fun _ => Int.natCast_nonneg _
  refine ⟨maintains_wf_callback Y r.2 r.1 s h.wf, ?_, fun u => ?_, fun u => ?_, fun u => ?_⟩
  · obtain ⟨i, -, heq⟩ | ⟨-, hadm, -⟩ := after_cases Y s r
    · rw [MirageLambda.after, heq, i.quotas_handle Y s h.wf.handles, h.quotas]
    · rw [hadm, h.quotas]
  · obtain ⟨hlow, hhigh⟩ := h.queued u
    have hweight : weightIf s.config u (Stays s) (fun _ => 1) r ≤ 1000 - (s.admission.countsOf u).queued := by
      refine weightIf_le (by omega) ?_
      rintro i hi rfl hstays
      have := (h.room (hfits.invocation hi) hstays.1).1
      omega
    have hpos := weightIf_nonneg s.config u (Stays s) r hone
    rw [h.counts_after hfits]
    constructor <;> simp only [] <;> omega
  · obtain ⟨hlow, hhigh⟩ := h.bytes u
    have hweight : weightIf s.config u (Taken s) (fun i => i.body.length) r ≤
        64 * 1024 * 1024 - (s.admission.countsOf u).bytes := by
      refine weightIf_le (by omega) ?_
      rintro i hi rfl htaken
      have := (h.room (hfits.invocation hi) htaken).2
      omega
    have hpos := weightIf_nonneg s.config u (Taken s) r hlength
    rw [h.counts_after hfits]
    constructor <;> simp only [] <;> omega
  · obtain ⟨hlow, hhigh⟩ := h.concurrent u
    have hweight : weightIf s.config u (Keeps Y s) (fun _ => 1) r ≤ 10 - (s.admission.countsOf u).concurrent := by
      refine weightIf_le (by omega) ?_
      rintro i hi rfl hkeeps
      have hroom := hkeeps.hasRoom
      rw [Admission.HasRoom, h.quotaFor] at hroom
      have hlt : (s.admission.countsOf i.tenant).concurrent < 10 := hroom
      omega
    have hpos := weightIf_nonneg s.config u (Keeps Y s) r hone
    rw [h.counts_after hfits]
    constructor <;> simp only [] <;> omega

theorem withinQuota_makeState {config : Config} {fs : FileSystem} {s : ServerState} (hs : makeState config fs = .ok s) :
    WithinQuota s ∧ ∀ u, s.admission.countsOf u = ⟨0, 0, 0⟩ := by
  have hwf := wf_makeState hs
  obtain ⟨store, -, hstate⟩ := Outcome.bind_eq_ok.1 hs
  cases hstate
  refine ⟨⟨hwf, rfl, fun u => ?_, fun u => ?_, fun u => ?_⟩, fun u => rfl⟩
  · exact ⟨le_refl 0, (by decide : (0 : Int) ≤ 1000)⟩
  · exact ⟨le_refl 0, (by decide : (0 : Int) ≤ 64 * 1024 * 1024)⟩
  · exact ⟨le_refl 0, (by decide : (0 : Int) ≤ 10)⟩

/-- **Each count is a tally of the requests that were served**, and all of them stay within the default quota: whatever
runs, a tenant is served at most 64 MiB of bodies, leaves at most a thousand requests in the queue and leaks at most ten
executions in the life of a server. -/
theorem counters_are_tallies (Y : Yojson) (config : Config) (fs : FileSystem) (s₀ : ServerState)
    (hs₀ : makeState config fs = .ok s₀) (requests : List (HttpRequest × Env)) (hfits : ∀ r ∈ requests, BodyFits r)
    (u : TenantId) :
    let s := handleAll Y s₀ requests
    let total := fun (P : ServerState → InvokeRequest → Prop) w =>
      Run.tally (after Y) (fun s r => weightIf config u (P s) w r) s₀ (served Y s₀ requests)
    s.admission.countsOf u =
        { queued := total Stays fun _ => 1
          bytes := total Taken fun i => i.body.length
          concurrent := total (Keeps Y) fun _ => 1 } ∧
      total Stays (fun _ => 1) ≤ 1000 ∧ total Taken (fun i => i.body.length) ≤ 64 * 1024 * 1024 ∧
      total (Keeps Y) (fun _ => 1) ≤ 10 := by
  intro s total
  obtain ⟨hstart, hzero⟩ := withinQuota_makeState hs₀
  have hserved : ∀ r ∈ served Y s₀ requests, BodyFits r := fun r hr => hfits r (mem_of_mem_served hr)
  have hconfig : s₀.config = config := by
    obtain ⟨store, -, hstate⟩ := Outcome.bind_eq_ok.1 hs₀
    cases hstate
    rfl
  have hstep : ∀ s r, (WithinQuota s ∧ s.config = config) → BodyFits r →
      WithinQuota (after Y s r) ∧ (after Y s r).config = config :=
    fun s r hs hr => ⟨hs.1.after hr, (config_callback Y r.2 r.1 s).trans hs.2⟩
  have hmeasure : ∀ (m : Admission.Counts → Int) (P : ServerState → InvokeRequest → Prop) (w : InvokeRequest → Int),
      (∀ s r, (WithinQuota s ∧ s.config = config) → BodyFits r →
        m ((after Y s r).admission.countsOf u) = m (s.admission.countsOf u) + weightIf config u (P s) w r) →
      m (s.admission.countsOf u) = m (s₀.admission.countsOf u) + total P w :=
    fun m P w hm => Run.measure_eq_tally (I := fun s => WithinQuota s ∧ s.config = config)
      (m := fun s => m (s.admission.countsOf u)) hstep hm ⟨hstart, hconfig⟩ (Run.along_of_forall hserved)
  have hqueued := hmeasure Admission.Counts.queued Stays (fun _ => 1)
    fun s r hs hr => by rw [hs.1.counts_after hr, hs.2]
  have hbytes := hmeasure Admission.Counts.bytes Taken (fun i => i.body.length)
    fun s r hs hr => by rw [hs.1.counts_after hr, hs.2]
  have hconcurrent := hmeasure Admission.Counts.concurrent (Keeps Y) (fun _ => 1)
    fun s r hs hr => by rw [hs.1.counts_after hr, hs.2]
  rw [hzero, zero_add] at hqueued hbytes hconcurrent
  have hend : WithinQuota s := Run.invariant_of_mem (fun s r hs hr => hs.after hr) hstart _ hserved
  refine ⟨?_, ?_, ?_, ?_⟩
  · exact Admission.Counts.ext hqueued hbytes hconcurrent
  · rw [← hqueued]
    exact (hend.queued u).2
  · rw [← hbytes]
    exact (hend.bytes u).2
  · rw [← hconcurrent]
    exact (hend.concurrent u).2

open MirageLambda.Bundle (sampleTenant sampleFunction sampleYojson)

/-- An asynchronous invocation of the sample with two bytes. -/
def samplePost : HttpRequest :=
  { meth := .post, path := str "/v1/invoke-async/acme/hello/live"
    authorization := some (str "Bearer dev-token"), body := str "42" }

/-- The request is one that stays, and its two bytes stay with it. -/
theorem counters_are_tallies_sample :
    Run.tally (after sampleYojson) (fun s r => weightIf (defaultConfig (str "/srv")) sampleTenant (Stays s) (fun _ => 1) r)
        sampleState [(samplePost, sampleEnv)] = 1 ∧
      Run.tally (after sampleYojson) (fun s r => weightIf (defaultConfig (str "/srv")) sampleTenant (Taken s)
        (fun i => i.body.length) r) sampleState [(samplePost, sampleEnv)] = 2 := by
  have hfits : ∀ r ∈ [(samplePost, sampleEnv)], BodyFits r := by
    intro r hr
    rw [List.mem_singleton.1 hr]
    show ((str "42").length : Int) ≤ maxStringLength
    decide +kernel
  obtain ⟨hcounts, -⟩ := counters_are_tallies sampleYojson (defaultConfig (str "/srv")) ⟨fun _ => none⟩ sampleState
    makeState_sample [(samplePost, sampleEnv)] hfits sampleTenant
  have hvalue : (handleAll sampleYojson sampleState [(samplePost, sampleEnv)]).admission.countsOf sampleTenant =
      ⟨1, 2, 0⟩ := by
    decide +kernel
  rw [hvalue, served_singleton (by decide +kernel)] at hcounts
  exact ⟨(congrArg Admission.Counts.queued hcounts).symm, (congrArg Admission.Counts.bytes hcounts).symm⟩

/-! ## Counts that have reached their quota -/

/-- The engines are well formed and no count is negative. -/
structure Sound (s : ServerState) : Prop where
  wf : s.WF
  nonneg : s.admission.Nonneg

/-- The queue and the executions of a tenant count at least this, under this quota. -/
structure AtLeast (u : TenantId) (c : Admission.Counts) (q : Admission.TenantQuota) (s : ServerState) : Prop where
  sound : Sound s
  queued : c.queued ≤ (s.admission.countsOf u).queued
  concurrent : c.concurrent ≤ (s.admission.countsOf u).concurrent
  quota : s.admission.quotaFor u = q

theorem Sound.atLeast {s : ServerState} (h : Sound s) (u : TenantId) :
    AtLeast u (s.admission.countsOf u) (s.admission.quotaFor u) s :=
  ⟨h, le_refl _, le_refl _, rfl⟩

namespace Sound

variable {Y : Yojson} {s : ServerState}

/-- **No request takes anything off the queue or the executions.** -/
theorem counts_after (h : Sound s) (r : HttpRequest × Env) (u : TenantId) :
    (s.admission.countsOf u).queued ≤ ((after Y s r).admission.countsOf u).queued ∧
      (s.admission.countsOf u).concurrent ≤ ((after Y s r).admission.countsOf u).concurrent := by
  obtain ⟨i, -, heq⟩ | ⟨-, hadm, -⟩ := after_cases Y s r
  · obtain ⟨change, hchange, hkind⟩ := i.countsOf_handle Y h.wf.handles h.nonneg
    rw [MirageLambda.after, heq, hchange]
    split
    · obtain ⟨-, -, -, rfl⟩ | ⟨-, -, -, rfl⟩ | ⟨-, -, -, rfl⟩ | ⟨-, -, -, rfl⟩ := hkind
      · exact ⟨le_refl _, le_refl _⟩
      · exact ⟨Int.le_add_one (le_refl _), le_refl _⟩
      · simp [Admission.Counts.take, Admission.Counts.start]
      · simp [Admission.Counts.finish_start_take]
    · exact ⟨le_refl _, le_refl _⟩
  · rw [hadm]
    exact ⟨le_refl _, le_refl _⟩

theorem quotaFor_after (h : Sound s) (r : HttpRequest × Env) (u : TenantId) :
    (after Y s r).admission.quotaFor u = s.admission.quotaFor u := by
  obtain ⟨i, -, heq⟩ | ⟨-, hadm, -⟩ := after_cases Y s r
  · rw [MirageLambda.after, heq, Admission.quotaFor, i.quotas_handle Y s h.wf.handles]
    rfl
  · rw [hadm]

protected theorem after (h : Sound s) (r : HttpRequest × Env) : Sound (after Y s r) := by
  refine ⟨maintains_wf_callback Y r.2 r.1 s h.wf, fun u => ?_⟩
  obtain ⟨hqueued, hconcurrent⟩ := h.counts_after (Y := Y) r u
  exact ⟨(h.nonneg u).1.trans hqueued, (h.nonneg u).2.trans hconcurrent⟩

/-- Every state that requests can bring a new server to. -/
theorem handleAll {config : Config} {fs : FileSystem} {s₀ : ServerState} (hs₀ : makeState config fs = .ok s₀)
    (requests : List (HttpRequest × Env)) : Sound (handleAll Y s₀ requests) := by
  obtain ⟨hstart, -⟩ := withinQuota_makeState hs₀
  exact Run.invariant (fun s r hs => hs.after r) ⟨hstart.wf, hstart.nonneg⟩ (served Y s₀ requests)

end Sound

theorem AtLeast.after {Y : Yojson} {s : ServerState} {u : TenantId} {c : Admission.Counts} {q : Admission.TenantQuota}
    (h : AtLeast u c q s) (r : HttpRequest × Env) : AtLeast u c q (after Y s r) := by
  obtain ⟨hqueued, hconcurrent⟩ := h.sound.counts_after (Y := Y) r u
  refine ⟨h.sound.after r, h.queued.trans hqueued, h.concurrent.trans hconcurrent, ?_⟩
  rw [h.sound.quotaFor_after]
  exact h.quota

namespace InvokeRequest

/-- With a full queue nothing happens. -/
theorem handle_of_full_queue (Y : Yojson) (i : InvokeRequest) {s : ServerState}
    (hfull : (s.admission.quotaFor i.tenant).maxQueued ≤ (s.admission.countsOf i.tenant).queued) :
    (i.handle Y s).2 = s ∧ ∀ status, Answers status (i.handle Y s) → status = 429 := by
  unfold handle
  obtain ⟨x, -, heq⟩ | ⟨id, -, ⟨-, e, -, heq⟩ | ⟨hadmits, -⟩⟩ :=
    handleInvoke_cases Y i.env i.tenant i.functionName i.body (s := s) i.qualifier i.async
  · rw [heq]
    refine ⟨rfl, ?_⟩
    rintro status ⟨response, hok, -⟩
    cases hok
  · rw [heq]
    refine ⟨rfl, ?_⟩
    rintro status ⟨response, hok, rfl⟩
    cases hok
    rfl
  · exact absurd hadmits.queue (not_lt.2 hfull)

/-- Without room nothing runs. -/
theorem handle_of_no_room (Y : Yojson) (i : InvokeRequest) {s : ServerState} (hasync : i.async = false)
    (hfull : ¬ s.admission.HasRoom i.tenant) :
    (i.handle Y s).2.qjs = s.qjs ∧ (i.handle Y s).2.invocations = s.invocations ∧
      ∀ status, Answers status (i.handle Y s) → status = 429 := by
  unfold handle
  obtain ⟨x, -, heq⟩ | ⟨id, -, ⟨-, e, -, heq⟩ | ⟨-, admission, hadmitted, heq⟩⟩ :=
    handleInvoke_cases Y i.env i.tenant i.functionName i.body (s := s) i.qualifier i.async
  · rw [heq]
    refine ⟨rfl, rfl, ?_⟩
    rintro status ⟨response, hok, -⟩
    cases hok
  · rw [heq]
    refine ⟨rfl, rfl, ?_⟩
    rintro status ⟨response, hok, rfl⟩
    cases hok
    rfl
  · have hroom := s.admission.hasRoom_admitRequest i.tenant (i.env.nowMs + 5000) i.env.nowMs i.body.length
    simp only [hadmitted] at hroom
    rw [heq, hasync]
    obtain ⟨-, message, hanswer⟩ | ⟨hhas, -⟩ := invokeSync_cases Y i.env id i.tenant i.functionName i.body
      (i.env.nowMs + 5000) (s := { s with admission }) i.qualifier
    · simp only [Bool.false_eq_true, if_false]
      rw [hanswer]
      refine ⟨rfl, rfl, ?_⟩
      rintro status ⟨response, hok, rfl⟩
      cases hok
      rfl
    · exact absurd (hroom.1 hhas) hfull

end InvokeRequest

/-- The request of an invocation is handled as one. -/
theorem callback_of_invocation {Y : Yojson} {s : ServerState} {r : HttpRequest × Env} {i : InvokeRequest}
    (hi : invocationOf s.config r = some i) : callback Y r.2 r.1 s = i.handle Y s := by
  obtain ⟨i', hi', heq⟩ | ⟨hno, -⟩ := after_cases Y s r
  · rw [hi] at hi'
    cases hi'
    exact heq
  · rw [hi] at hno
    cases hno

/-- **A lockout lasts for the life of the server.** Once a tenant's queue is at its quota, every later invocation of
the tenant is refused and changes nothing; once its executions are, every later synchronous one is refused and nothing
runs. Every state that requests can bring a new server to is one to which this applies. -/
theorem lockouts_are_permanent (Y : Yojson) :
    (∀ config fs s₀ before, makeState config fs = .ok s₀ → Sound (handleAll Y s₀ before)) ∧
    ∀ (s : ServerState) (u : TenantId) (requests : List (HttpRequest × Env)), Sound s →
      let s' := handleAll Y s requests
      ((s.admission.quotaFor u).maxQueued ≤ (s.admission.countsOf u).queued →
        ∀ r i, invocationOf s.config r = some i → i.tenant = u →
          after Y s' r = s' ∧ ∀ status, Answers status (callback Y r.2 r.1 s') → status = 429) ∧
      ((s.admission.quotaFor u).maxConcurrent ≤ (s.admission.countsOf u).concurrent →
        ∀ r i, invocationOf s.config r = some i → i.tenant = u → i.async = false →
          (after Y s' r).qjs = s'.qjs ∧ (after Y s' r).invocations = s'.invocations ∧
            ∀ status, Answers status (callback Y r.2 r.1 s') → status = 429) := by
  refine ⟨fun config fs s₀ before hs₀ => Sound.handleAll hs₀ before, ?_⟩
  intro s u requests hs s'
  have h : AtLeast u (s.admission.countsOf u) (s.admission.quotaFor u) s' :=
    Run.invariant (fun s r hs => hs.after r) (hs.atLeast u) (served Y s requests)
  have hconfig : s'.config = s.config := config_handleAll Y s requests
  constructor
  · rintro hfull r i hi rfl
    rw [after, callback_of_invocation (hconfig ▸ hi)]
    refine i.handle_of_full_queue Y ?_
    rw [h.quota]
    exact hfull.trans h.queued
  · rintro hfull r i hi rfl hasync
    rw [after, callback_of_invocation (hconfig ▸ hi)]
    refine i.handle_of_no_room Y hasync (not_lt.2 ?_)
    rw [h.quota]
    exact hfull.trans h.concurrent

/-- A server whose queue for the sample tenant is full. -/
def fullState : ServerState :=
  { sampleState with admission := { Admission.make with queued := Hashtbl.empty.replace sampleTenant 1000 } }

/-- The request that a new server takes is refused. -/
theorem lockouts_are_permanent_sample :
    Answers 429 (callback sampleYojson sampleEnv samplePost fullState) ∧
      after sampleYojson fullState (samplePost, sampleEnv) = fullState := by
  have hwf : fullState.WF := by
    have hsample := wf_makeState makeState_sample
    exact ⟨hsample.handles, fun u => le_of_eq (Admission.counter_empty u).symm⟩
  have hnonneg : fullState.admission.Nonneg := by
    intro u
    refine ⟨?_, le_of_eq (Admission.counter_empty u).symm⟩
    show 0 ≤ Admission.counter (Hashtbl.empty.replace sampleTenant 1000) u
    rw [Admission.counter_replace]
    split
    · decide
    · exact le_of_eq (Admission.counter_empty u).symm
  have hi : invocationOf fullState.config (samplePost, sampleEnv) =
      some { env := sampleEnv, tenant := sampleTenant, functionName := sampleFunction, qualifier := str "live"
             async := true, body := str "42" } := by
    have hcall : callOf fullState.config samplePost = some (.invoke sampleTenant sampleFunction (str "live") true) := by
      decide +kernel
    rw [invocationOf, hcall]
    rfl
  have hlocked := ((lockouts_are_permanent sampleYojson).2 fullState sampleTenant [] ⟨hwf, hnonneg⟩).1 (by decide +kernel)
    (samplePost, sampleEnv) _ hi rfl
  refine ⟨?_, hlocked.1⟩
  obtain ⟨response, hok⟩ : ∃ response, (callback sampleYojson sampleEnv samplePost fullState).1 = .ok response :=
    ⟨_, rfl⟩
  exact ⟨response, hok, hlocked.2 _ ⟨response, hok, rfl⟩⟩

end MirageLambda
