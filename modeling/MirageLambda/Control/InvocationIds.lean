import MirageLambda.Control.InvokeExits
import MirageLambda.Control.Outcomes
import MirageLambda.Lib.Run

/-!
# Which invocations share an id (control/mirage_lambda_control.ml:121-166)

`handle_invoke` takes the number of an invocation from the size of the table of results. An invocation enters the
table only when it was synchronous and `run_one` returned a result for it. Until the next result is recorded, every
accepted invocation gets the same number as the one that left none: an asynchronous one, or one whose run ended with
an error or an exception.

A `History` keeps the ids of the accepted invocations beside the state; `uniqueIds_iff` says in which histories they
are distinct.
-/

namespace MirageLambda
open OCaml Qjs

/-! ## Requests -/

/-- The arguments of `handle_invoke`, and its surroundings. -/
structure InvokeRequest where
  env : Env
  tenant : TenantId
  functionName : FunctionName
  qualifier : Str
  async : Bool
  body : Str

/-- The id with number `k`. -/
def numbered (k : Nat) : Str := str "inv-" ++ decimal k

theorem numbered_injective : Function.Injective numbered :=
  fun _ _ h => decimal_injective (List.append_cancel_left h)

namespace InvokeRequest

def handle (Y : Yojson) (r : InvokeRequest) : Handler Response :=
  handleInvoke Y r.env r.tenant r.functionName r.qualifier r.async r.body

/-- The id under which the request is accepted: it is admitted, its qualifier is one, and it is enqueued or there is
room to run it. -/
def acceptedId (r : InvokeRequest) (s : ServerState) : Option InvocationId :=
  match (InvocationId.ofStringExn (numbered (s.invocations.length + 1)) : Outcome Empty InvocationId),
    (s.admission.admitRequest r.tenant (r.env.nowMs + 5000) r.env.nowMs r.body.length).1,
    (Qualifier.ofStringExn r.qualifier : Outcome Empty Qualifier) with
  | .ok id, .ok (), .ok _ => if r.async = true ∨ s.admission.HasRoom r.tenant then some id else none
  | _, _, _ => none

/-- The accepted request leaves a result: it is synchronous and `run_one` returns one. -/
def records (Y : Yojson) (r : InvokeRequest) (s : ServerState) (id : InvocationId) : Bool :=
  match r.async, (Qualifier.ofStringExn r.qualifier : Outcome Empty Qualifier) with
  | false, .ok q =>
    match (runOne Y r.env.worker s.artifactStore s.fs s.registry id r.tenant r.functionName q r.body
        (r.env.nowMs + 5000) s.qjs).1 with
    | .ok _ => true
    | _ => false
  | _, _ => false

theorem records_of_runOne {Y : Yojson} {r : InvokeRequest} {s : ServerState} {id : InvocationId} {q : Qualifier}
    {a : InvocationResult} {st' : State} (hasync : r.async = false) (hq : q.toStr = r.qualifier)
    (hrun : runOne Y r.env.worker s.artifactStore s.fs s.registry id r.tenant r.functionName q r.body
      (r.env.nowMs + 5000) s.qjs = (.ok a, st')) : r.records Y s id = true := by
  have hval : (Qualifier.ofStringExn r.qualifier : Outcome Empty Qualifier) = .ok q := Checked.ofStringExn_eq_ok.2 hq
  simp only [records, hasync, hval, hrun]

end InvokeRequest

/-! ## What a request does to the results and the queue -/

/-- A result is recorded under the id of the invocation; an error is not. -/
theorem respond_records (Y : Yojson) (id : InvocationId) (s : ServerState) (result : Except Error InvocationResult) :
    (respond Y id result s).2.scheduler = s.scheduler ∧
      (respond Y id result s).2.invocations = match result with
        | .ok r => s.invocations.replace id r
        | .error _ => s.invocations := by
  cases result with
  | ok r => exact ⟨rfl, rfl⟩
  | error e => exact ⟨rfl, rfl⟩

section
variable (Y : Yojson) (env : Env) (id : InvocationId) (tenant : TenantId) (fn : FunctionName) (body : Str)
  (deadline : Int64) (s : ServerState)

/-- A run that was accepted records its result, if it has one. -/
theorem invokeAccepted_records {qualifier : Str} {q : Qualifier} (hq : q.toStr = qualifier) :
    (invokeAccepted Y env id tenant fn qualifier body deadline s).2.scheduler = s.scheduler ∧
      (invokeAccepted Y env id tenant fn qualifier body deadline s).2.invocations =
        match (runOne Y env.worker s.artifactStore s.fs s.registry id tenant fn q body deadline s.qjs).1 with
        | .ok r => s.invocations.replace id r
        | _ => s.invocations := by
  have hval : (Qualifier.ofStringExn qualifier : Outcome Empty Qualifier) = .ok q := Checked.ofStringExn_eq_ok.2 hq
  unfold invokeAccepted
  rw [hval, Prog.lift_ok_bind]
  cases hrun : runOne Y env.worker s.artifactStore s.fs s.registry id tenant fn q body deadline s.qjs with
  | mk r qjs =>
    cases r with
    | ok a =>
      have hserver : runOnServer Y env.worker id tenant fn q body deadline s = (.ok (.ok a), { s with qjs }) := by
        simp only [runOnServer, hrun]
      rw [Prog.bind_of_ok hserver, Prog.modify_bind]
      exact respond_records Y id _ (.ok a)
    | error e =>
      have hserver : runOnServer Y env.worker id tenant fn q body deadline s = (.ok (.error e), { s with qjs }) := by
        simp only [runOnServer, hrun]
      rw [Prog.bind_of_ok hserver, Prog.modify_bind]
      exact respond_records Y id _ (.error e)
    | raised x =>
      have hserver : runOnServer Y env.worker id tenant fn q body deadline s = (.raised x, { s with qjs }) := by
        simp only [runOnServer, hrun]
      rw [Prog.bind_of_raised hserver]
      exact ⟨rfl, rfl⟩

/-- There is room, and the qualifier is one: the request runs. -/
theorem invokeSync_records {qualifier : Str} {q : Qualifier}
    (hq : (Qualifier.ofStringExn qualifier : Outcome Empty Qualifier) = .ok q) (hroom : s.admission.HasRoom tenant) :
    (invokeSync Y env id tenant fn qualifier body deadline s).2.scheduler = s.scheduler ∧
      (invokeSync Y env id tenant fn qualifier body deadline s).2.invocations =
        match (runOne Y env.worker s.artifactStore s.fs s.registry id tenant fn q body deadline s.qjs).1 with
        | .ok r => s.invocations.replace id r
        | _ => s.invocations := by
  rcases invokeSync_cases Y env id tenant fn body deadline (s := s) qualifier with
    ⟨hfull, _⟩ | ⟨_, admission, heq, _⟩
  · exact absurd hroom hfull
  · rw [heq]
    exact invokeAccepted_records Y env id tenant fn body deadline { s with admission } (Checked.ofStringExn_eq_ok.1 hq)

/-- Without room, or with another qualifier, it stops before `run_one`. -/
theorem invokeSync_of_refused {qualifier : Str} (h : ¬ s.admission.HasRoom tenant ∨
      ∃ x, (Qualifier.ofStringExn qualifier : Outcome Empty Qualifier) = .raised x) :
    (invokeSync Y env id tenant fn qualifier body deadline s).2.scheduler = s.scheduler ∧
      (invokeSync Y env id tenant fn qualifier body deadline s).2.invocations = s.invocations := by
  rcases invokeSync_cases Y env id tenant fn body deadline (s := s) qualifier with
    ⟨_, _, hsame⟩ | ⟨hroom, admission, heq, _⟩
  · rw [hsame]
    exact ⟨rfl, rfl⟩
  · rcases h with hfull | ⟨x, hq⟩
    · exact absurd hroom hfull
    · rw [heq, invokeAccepted, hq, Prog.lift_raised_bind]
      exact ⟨rfl, rfl⟩

theorem invokeAsync_enqueues {qualifier : Str} {q : Qualifier}
    (hq : (Qualifier.ofStringExn qualifier : Outcome Empty Qualifier) = .ok q) :
    (invokeAsync Y env id tenant fn qualifier body deadline s).2.invocations = s.invocations ∧
      ∃ p : Scheduler.Pending, p.invocationId = id ∧
        (invokeAsync Y env id tenant fn qualifier body deadline s).2.scheduler = s.scheduler.enqueue p := by
  simp only [invokeAsync, hq, Prog.lift_ok_bind, Prog.modify_bind]
  exact ⟨rfl, _, rfl, rfl⟩

end

namespace InvokeRequest

/-- What a request leaves in the results and the queue: nothing. -/
def LeavesNothing (Y : Yojson) (r : InvokeRequest) (s : ServerState) : Prop :=
  (r.handle Y s).2.scheduler = s.scheduler ∧ (r.handle Y s).2.invocations = s.invocations

/-- Its id at the end of the queue. -/
def Enqueues (Y : Yojson) (r : InvokeRequest) (s : ServerState) (id : InvocationId) : Prop :=
  (r.handle Y s).2.invocations = s.invocations ∧
    ∃ p : Scheduler.Pending, p.invocationId = id ∧ (r.handle Y s).2.scheduler = s.scheduler.enqueue p

/-- A result under its id. -/
def Leaves (Y : Yojson) (r : InvokeRequest) (s : ServerState) (id : InvocationId) : Prop :=
  (r.handle Y s).2.scheduler = s.scheduler ∧ ∃ a, (r.handle Y s).2.invocations = s.invocations.replace id a

/-- **What a request does.** One that is not accepted leaves nothing. An accepted one has the next number; it leaves a
result if `records` says so, and otherwise its id in the queue or nothing. -/
theorem handle_cases (Y : Yojson) (r : InvokeRequest) (s : ServerState) :
    (r.acceptedId s = none ∧ r.LeavesNothing Y s) ∨
    ∃ id : InvocationId, r.acceptedId s = some id ∧ id.toStr = numbered (s.invocations.length + 1) ∧
      ((r.records Y s id = false ∧ (r.Enqueues Y s id ∨ r.LeavesNothing Y s)) ∨
        (r.records Y s id = true ∧ r.Leaves Y s id)) := by
  obtain ⟨env, tenant, fn, qualifier, async, body⟩ := r
  unfold LeavesNothing Enqueues Leaves handle acceptedId records
  simp only [numbered]
  obtain ⟨x, hid, heq⟩ | ⟨id, hid, ⟨-, e, hrefused, heq⟩ | ⟨-, admission, hadmitted, heq⟩⟩ :=
    handleInvoke_cases Y env tenant fn body (s := s) qualifier async
  · rw [hid, heq]
    exact Or.inl ⟨rfl, rfl, rfl⟩
  · rw [hid, hrefused, heq]
    exact Or.inl ⟨rfl, rfl, rfl⟩
  · have hval := Checked.ofStringExn_eq_ok.1 hid
    have hroom := s.admission.hasRoom_admitRequest tenant (env.nowMs + 5000) env.nowMs body.length
    simp only [hadmitted] at hroom
    simp only [hid, hadmitted, heq]
    cases hq : (Qualifier.ofStringExn qualifier : Outcome Empty Qualifier) with
    | error e => exact e.elim
    | raised x =>
      refine Or.inl ⟨rfl, ?_⟩
      cases async with
      | true => simp only [if_true, invokeAsync, hq, Prog.lift_raised_bind, and_self]
      | false => exact invokeSync_of_refused Y env id tenant fn body (env.nowMs + 5000) _ (Or.inr ⟨x, hq⟩)
    | ok q =>
      cases async with
      | true =>
        refine Or.inr ⟨id, by simp, hval, Or.inl ⟨rfl, Or.inl ?_⟩⟩
        exact invokeAsync_enqueues Y env id tenant fn body (env.nowMs + 5000) { s with admission } hq
      | false =>
        by_cases hhas : s.admission.HasRoom tenant
        · obtain ⟨hsched, hinv⟩ := invokeSync_records Y env id tenant fn body (env.nowMs + 5000)
            { s with admission } hq (hroom.2 hhas)
          refine Or.inr ⟨id, by simp [hhas], hval, ?_⟩
          cases hrun : (runOne Y env.worker s.artifactStore s.fs s.registry id tenant fn q body (env.nowMs + 5000)
              s.qjs).1 with
          | ok a =>
            simp only [hrun] at hinv
            exact Or.inr ⟨by simp only [hrun], hsched, a, hinv⟩
          | error e =>
            simp only [hrun] at hinv
            exact Or.inl ⟨by simp only [hrun], Or.inr ⟨hsched, hinv⟩⟩
          | raised x =>
            simp only [hrun] at hinv
            exact Or.inl ⟨by simp only [hrun], Or.inr ⟨hsched, hinv⟩⟩
        · refine Or.inl ⟨by simp [hhas], ?_⟩
          exact invokeSync_of_refused Y env id tenant fn body (env.nowMs + 5000) _ (Or.inl (mt hroom.1 hhas))

end InvokeRequest

/-! ## Histories -/

/-- What happens on the state: the handlers, and the scheduler's two ways to take an invocation out of the queue. -/
inductive Event where
  | deploy (env : Env) (tenant : TenantId) (functionName : FunctionName) (body : Str)
  | moveAlias (tenant : TenantId) (functionName : FunctionName) (alias_ : Alias) (body : Str)
  | invoke (r : InvokeRequest)
  | cancel (id : InvocationId)
  | nextAssignment

/-- The state, the ids of the invocations accepted so far, and whether the last of them left no result. -/
structure History where
  server : ServerState
  accepted : List InvocationId
  unrecorded : Bool

namespace History

def start (s : ServerState) : History := { server := s, accepted := [], unrecorded := false }

/-- What an event does. No event follows a request that is the end of the process. -/
def step (Y : Yojson) (h : History) : Event → History
  | .deploy env tenant functionName body => { h with server := (handleDeploy Y env tenant functionName body h.server).2 }
  | .moveAlias tenant functionName alias_ body =>
    { h with server := (handleMoveAlias Y tenant functionName alias_ body h.server).2 }
  | .invoke r =>
    let server := (r.handle Y h.server).2
    match r.acceptedId h.server with
    | some id => { server, accepted := h.accepted ++ [id], unrecorded := !r.records Y h.server id }
    | none => { h with server }
  | .cancel id => { h with server := { h.server with scheduler := (h.server.scheduler.cancel id).2 } }
  | .nextAssignment => { h with server := { h.server with scheduler := h.server.scheduler.nextAssignment.2 } }

/-- **Ids are unique**: no two accepted invocations share one, `cancel` takes out at most one invocation, and the
result of the next invocation overwrites none. -/
structure UniqueIds (h : History) : Prop where
  ids : h.accepted.Nodup
  cancel : ∀ id, h.server.scheduler.queue.length ≤ (h.server.scheduler.cancel id).2.queue.length + 1
  record : ∀ id : InvocationId, id.toStr = numbered (h.server.invocations.length + 1) →
    h.server.invocations.findOpt id = none

/-- The condition on an event: a request is accepted only after the last accepted invocation has left a result. -/
def AfterRecord (h : History) : Event → Prop
  | .invoke r => (r.acceptedId h.server).isSome → h.unrecorded = false
  | _ => True

/-! ## The numbers -/

/-- The results have the numbers up to the size of the table, the accepted ids at most one more, and that one exactly
when the last invocation left no result. -/
structure Numbered (h : History) : Prop where
  recorded : ∀ id a, h.server.invocations.findOpt id = some a →
    ∃ k ≤ h.server.invocations.length, id.toStr = numbered k
  accepted : ∀ id ∈ h.accepted, ∃ k ≤ h.server.invocations.length + 1, id.toStr = numbered k
  last : (∃ id ∈ h.accepted, id.toStr = numbered (h.server.invocations.length + 1)) ↔ h.unrecorded = true
  queue : h.server.scheduler.ids.Sublist h.accepted

variable {h : History}

/-- The next number is free in the table. -/
theorem Numbered.next_free (hn : Numbered h) {id : InvocationId}
    (hid : id.toStr = numbered (h.server.invocations.length + 1)) : h.server.invocations.findOpt id = none := by
  cases hfind : h.server.invocations.findOpt id with
  | none => rfl
  | some a =>
    obtain ⟨k, hk, heq⟩ := hn.recorded id a hfind
    rw [hid] at heq
    have := numbered_injective heq
    omega

/-- Events that neither accept nor record. -/
theorem Numbered.frame (hn : Numbered h) {server : ServerState} (hinv : server.invocations = h.server.invocations)
    (hqueue : server.scheduler.ids.Sublist h.server.scheduler.ids) : Numbered { h with server } where
  recorded := by
    simp only [hinv]
    exact hn.recorded
  accepted := by
    simp only [hinv]
    exact hn.accepted
  last := by
    simp only [hinv]
    exact hn.last
  queue := hqueue.trans hn.queue

/-- One more accepted id, with the next number. -/
theorem Numbered.accepted_append (hn : Numbered h) {id : InvocationId}
    (hid : id.toStr = numbered (h.server.invocations.length + 1)) :
    ∀ id' ∈ h.accepted ++ [id], ∃ k ≤ h.server.invocations.length + 1, id'.toStr = numbered k := by
  intro id' hmem
  rcases List.mem_append.1 hmem with hold | hnew
  · exact hn.accepted id' hold
  · rw [List.mem_singleton.1 hnew]
    exact ⟨_, le_refl _, hid⟩

/-- An accepted invocation that leaves no result. -/
theorem Numbered.unrecorded (hn : Numbered h) {server : ServerState} {id : InvocationId}
    (hid : id.toStr = numbered (h.server.invocations.length + 1))
    (hinv : server.invocations = h.server.invocations)
    (hqueue : server.scheduler.ids.Sublist (h.server.scheduler.ids ++ [id])) :
    Numbered { server, accepted := h.accepted ++ [id], unrecorded := true } where
  recorded := by
    simp only [hinv]
    exact hn.recorded
  accepted := by
    simp only [hinv]
    exact hn.accepted_append hid
  last := by
    simp only [hinv]
    exact iff_of_true ⟨id, List.mem_append_right _ (List.mem_singleton_self id), hid⟩ trivial
  queue := hqueue.trans (hn.queue.append (List.Sublist.refl [id]))

/-- One that leaves a result: the table grows, and the next number has never been used. -/
theorem Numbered.record (hn : Numbered h) {server : ServerState} {id : InvocationId} {a : InvocationResult}
    (hid : id.toStr = numbered (h.server.invocations.length + 1))
    (hinv : server.invocations = h.server.invocations.replace id a)
    (hqueue : server.scheduler = h.server.scheduler) :
    Numbered { server, accepted := h.accepted ++ [id], unrecorded := false } := by
  have hlen : server.invocations.length = h.server.invocations.length + 1 := by
    rw [hinv, Hashtbl.length_replace (hn.next_free hid)]
  have haccepted := hn.accepted_append hid
  refine ⟨?_, ?_, ?_, ?_⟩
  · intro id' b hfind
    simp only [hinv, Hashtbl.findOpt_replace] at hfind
    simp only [hlen]
    by_cases heq : id' = id
    · rw [heq]
      exact ⟨_, le_refl _, hid⟩
    · rw [if_neg heq] at hfind
      obtain ⟨k, hk, hstr⟩ := hn.recorded id' b hfind
      exact ⟨k, by omega, hstr⟩
  · simp only [hlen]
    intro id' hmem
    obtain ⟨k, hk, hstr⟩ := haccepted id' hmem
    exact ⟨k, by omega, hstr⟩
  · simp only [hlen]
    refine iff_of_false ?_ Bool.false_ne_true
    rintro ⟨id', hmem, hstr⟩
    obtain ⟨k, hk, hstr'⟩ := haccepted id' hmem
    rw [hstr] at hstr'
    have := numbered_injective hstr'
    omega
  · simp only [hqueue]
    exact hn.queue.trans (List.sublist_append_left _ _)

theorem deploy_frame (Y : Yojson) (env : Env) (t : TenantId) (f : FunctionName) (body : Str) (s : ServerState) :
    (handleDeploy Y env t f body s).2.invocations = s.invocations ∧
      (handleDeploy Y env t f body s).2.scheduler = s.scheduler :=
  maintains_handleDeploy_frame (I := fun s' => s'.invocations = s.invocations ∧ s'.scheduler = s.scheduler)
    (fun _ _ _ hs => hs) t f body s ⟨rfl, rfl⟩

theorem moveAlias_frame (Y : Yojson) (t : TenantId) (f : FunctionName) (al : Alias) (body : Str) (s : ServerState) :
    (handleMoveAlias Y t f al body s).2.invocations = s.invocations ∧
      (handleMoveAlias Y t f al body s).2.scheduler = s.scheduler :=
  maintains_handleMoveAlias_frame (I := fun s' => s'.invocations = s.invocations ∧ s'.scheduler = s.scheduler)
    (fun _ _ _ hs => hs) t f al body s ⟨rfl, rfl⟩

/-- **The numbers stay right**, whatever happens. -/
theorem Numbered.step (Y : Yojson) (h : History) (e : Event) (hn : Numbered h) : Numbered (h.step Y e) := by
  cases e with
  | deploy env t f body =>
    obtain ⟨hinv, hsched⟩ := deploy_frame Y env t f body h.server
    exact hn.frame hinv (by rw [hsched])
  | moveAlias t f al body =>
    obtain ⟨hinv, hsched⟩ := moveAlias_frame Y t f al body h.server
    exact hn.frame hinv (by rw [hsched])
  | cancel id => exact hn.frame rfl (h.server.scheduler.ids_cancel_sublist id)
  | nextAssignment => exact hn.frame rfl h.server.scheduler.ids_nextAssignment_sublist
  | invoke r =>
    rw [History.step]
    rcases r.handle_cases Y h.server with ⟨hno, hsched, hinv⟩ | ⟨id, hsome, hid, hrest⟩
    · simp only [hno]
      exact hn.frame hinv (by rw [hsched])
    · simp only [hsome]
      rcases hrest with ⟨hrec, ⟨hinv, p, hp, hsched⟩ | ⟨hsched, hinv⟩⟩ | ⟨hrec, hsched, a, hinv⟩
      · simp only [hrec, Bool.not_false]
        refine hn.unrecorded hid hinv ?_
        rw [hsched, Scheduler.ids_enqueue, hp]
      · simp only [hrec, Bool.not_false]
        refine hn.unrecorded hid hinv ?_
        rw [hsched]
        exact List.sublist_append_left _ _
      · simp only [hrec, Bool.not_true]
        exact hn.record hid hinv hsched

/-! ## Uniqueness -/

/-- Once the accepted ids are distinct, the rest follows. -/
theorem uniqueIds_iff_nodup (hn : Numbered h) : UniqueIds h ↔ h.accepted.Nodup := by
  refine ⟨UniqueIds.ids, ?_⟩
  intro hnodup
  refine ⟨hnodup, ?_, fun id hid => hn.next_free hid⟩
  intro id
  have hcount : h.server.scheduler.ids.count id ≤ 1 := List.nodup_iff_count_le_one.1 (hnodup.sublist hn.queue) id
  have hlen := h.server.scheduler.length_cancel id
  omega

/-- An event keeps the ids distinct exactly when it accepts nothing before the last result is recorded. -/
theorem nodup_step_iff (Y : Yojson) (h : History) (e : Event) (hn : Numbered h) (hnodup : h.accepted.Nodup) :
    (h.step Y e).accepted.Nodup ↔ AfterRecord h e := by
  cases e with
  | deploy env t f body => exact iff_of_true hnodup trivial
  | moveAlias t f al body => exact iff_of_true hnodup trivial
  | cancel id => exact iff_of_true hnodup trivial
  | nextAssignment => exact iff_of_true hnodup trivial
  | invoke r =>
    rw [History.step, AfterRecord]
    rcases r.handle_cases Y h.server with ⟨hno, _⟩ | ⟨id, hsome, hid, _⟩
    · simp only [hno]
      exact iff_of_true hnodup fun hsome => absurd hsome (by simp)
    · -- the new id is there already exactly when the last invocation left no result
      have hmem : id ∈ h.accepted ↔ h.unrecorded = true := by
        rw [← hn.last]
        constructor
        · intro hin
          exact ⟨id, hin, hid⟩
        · rintro ⟨id', hin, hid'⟩
          rw [show id = id' from Checked.ext (hid.trans hid'.symm)]
          exact hin
      simp only [hsome, Option.isSome_some, forall_const]
      rw [← Bool.not_eq_true, ← hmem, ← List.concat_eq_append, List.nodup_concat]
      exact and_iff_left hnodup

/-- No result yet, and nothing in the queue. -/
structure Fresh (s : ServerState) : Prop where
  invocations : s.invocations = .empty
  scheduler : s.scheduler = .make

theorem fresh_makeState {config : Config} {fs : FileSystem} {s : ServerState} (hs : makeState config fs = .ok s) :
    Fresh s := by
  obtain ⟨store, -, hstate⟩ := Outcome.bind_eq_ok.1 hs
  cases hstate
  exact ⟨rfl, rfl⟩

theorem numbered_start {s : ServerState} (hs : Fresh s) : Numbered (start s) := by
  refine ⟨?_, ?_, ?_, ?_⟩
  · intro id a hfind
    rw [start, hs.invocations] at hfind
    cases hfind
  · intro id hmem
    cases hmem
  · refine iff_of_false ?_ Bool.false_ne_true
    rintro ⟨id, hmem, _⟩
    cases hmem
  · simp only [start, hs.scheduler]
    exact List.Sublist.refl []

/-- **Invocation ids are unique** in a history exactly when no request is accepted while the last accepted invocation
has left no result. A new server is fresh. -/
theorem uniqueIds_iff (Y : Yojson) :
    (∀ config fs s, makeState config fs = .ok s → Fresh s) ∧
    ∀ s : ServerState, Fresh s → ∀ events : List Event,
      (∀ pre, pre <+: events → UniqueIds (pre.foldl (step Y) (start s))) ↔
        Run.Along (step Y) AfterRecord (start s) events := by
  refine ⟨fun _ _ _ hs => fresh_makeState hs, ?_⟩
  intro s hs events
  have hall : ∀ pre : List Event, Numbered (pre.foldl (step Y) (start s)) :=
    Run.invariant (Numbered.step Y) (numbered_start hs)
  rw [← Run.invariant_iff_along (Numbered.step Y) (nodup_step_iff Y) (numbered_start hs) List.nodup_nil events]
  constructor
  · intro h pre hpre
    exact (uniqueIds_iff_nodup (hall pre)).1 (h pre hpre)
  · intro h pre hpre
    exact (uniqueIds_iff_nodup (hall pre)).2 (h pre hpre)

/-! ### Two requests that run, and two that wait -/

open MirageLambda.Bundle (sampleTenant sampleFunction sampleYojson)

/-- A request for the sample, on a machine where its handler returns 42. -/
def sampleRequest (async : Bool) : InvokeRequest :=
  { env := { sampleEnv with worker := settledEnv (.fulfilled (str "42")) }
    tenant := sampleTenant, functionName := sampleFunction, qualifier := str "live", async, body := [] }

/-- A server to which the sample has been deployed. -/
def deployedState : ServerState :=
  { sampleState with artifactStore := ⟨str "/objects"⟩, registry := sampleRegistry, fs := Registry.crossTenantFiles }

/-- The first synchronous request is run, and its result recorded. -/
theorem sampleRequest_records :
    (sampleRequest false).acceptedId deployedState = some firstId ∧
      (sampleRequest false).records sampleYojson deployedState firstId = true := by
  refine ⟨by decide +kernel, ?_⟩
  obtain ⟨a, st', hrun⟩ := sampleInvocation_completes (.fulfilled (str "42"))
  exact InvokeRequest.records_of_runOne (q := ⟨str "live", by decide⟩) rfl rfl hrun

theorem uniqueIds_two_runs :
    Fresh deployedState ∧
      Run.Along (step sampleYojson) AfterRecord (start deployedState)
        [.invoke (sampleRequest false), .invoke (sampleRequest false)] ∧
      ∀ pre, pre <+: [.invoke (sampleRequest false), .invoke (sampleRequest false)] →
        UniqueIds (pre.foldl (step sampleYojson) (start deployedState)) := by
  have hfresh : Fresh deployedState := ⟨rfl, rfl⟩
  have halong : Run.Along (step sampleYojson) AfterRecord (start deployedState)
      [.invoke (sampleRequest false), .invoke (sampleRequest false)] := by
    refine ⟨fun _ => rfl, ?_, trivial⟩
    intro _
    obtain ⟨haccepted, hrecords⟩ := sampleRequest_records
    simp only [step, start, haccepted, hrecords, Bool.not_true]
  exact ⟨hfresh, halong, ((uniqueIds_iff sampleYojson).2 deployedState hfresh _).2 halong⟩

/-- Two asynchronous requests on a new server are both `inv-1`, and cancelling that id takes out both. -/
theorem async_requests_share_id :
    makeState (defaultConfig (str "/srv")) ⟨fun _ => none⟩ = .ok sampleState ∧
      let h := [.invoke (sampleRequest true), .invoke (sampleRequest true)].foldl (step sampleYojson) (start sampleState)
      h.accepted = [firstId, firstId] ∧ h.server.scheduler.queue.length = 2 ∧
        (h.server.scheduler.cancel firstId).2.queue.length = 0 ∧ ¬ UniqueIds h := by
  refine ⟨makeState_sample, ?_⟩
  intro h
  have haccepted : h.accepted = [firstId, firstId] := by decide +kernel
  refine ⟨haccepted, by decide +kernel, by decide +kernel, ?_⟩
  intro hunique
  have hnodup := hunique.ids
  rw [haccepted] at hnodup
  simp at hnodup

end History

end MirageLambda
