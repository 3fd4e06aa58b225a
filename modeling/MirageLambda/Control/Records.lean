import MirageLambda.Control.Ledger

/-!
# What is left of the invocations (control/mirage_lambda_control.ml:121-166)

Two lists of the server only grow. A synchronous invocation that is answered 200 adds its result to the table, under
the next number (`results_are_append_only`). An asynchronous one that is answered 202 joins the queue of the scheduler,
and no request takes anything out of it: `next_assignment` and `cancel` have no caller, so what is accepted waits for
the life of the server (`accepted_async_waits`).
-/

namespace MirageLambda
open OCaml Qjs

/-! ## One invocation -/

/-- What a response 200 and a response 202 stand for: a result under the next number, the entry of the queue. -/
structure Accounted (s : ServerState) (entry : Option Scheduler.Pending) (r : Outcome Empty Response × ServerState) :
    Prop where
  result : (∃ (id : InvocationId) (a : InvocationResult), id.toStr = numbered (s.invocations.length + 1) ∧
      Answers 200 r ∧ r.2.invocations = s.invocations.replace id a) ∨
    (¬ Answers 200 r ∧ r.2.invocations = s.invocations)
  queue : r.2.scheduler.queue = s.scheduler.queue ++ entry.toList
  accepted : Answers 202 r ↔ entry.isSome = true

theorem answers_response {status : Nat} {response : Response} {s' : ServerState} :
    Answers status (.ok response, s') ↔ response.status = status := by
  constructor
  · rintro ⟨response', hok, hstatus⟩
    cases hok
    exact hstatus
  · exact fun h => ⟨response, rfl, h⟩

theorem not_answers_raised (status : Nat) (x : Exn) (s' : ServerState) : ¬ Answers status (.raised x, s') := by
  rintro ⟨response, hok, -⟩
  cases hok

namespace Accounted

variable {s s' : ServerState}

theorem raised (x : Exn) (hinv : s'.invocations = s.invocations) (hqueue : s'.scheduler = s.scheduler) :
    Accounted s none (.raised x, s') where
  result := Or.inr ⟨not_answers_raised 200 x s', hinv⟩
  queue := by simp [hqueue]
  accepted := iff_of_false (not_answers_raised 202 x s') Bool.false_ne_true

theorem refused (Y : Yojson) {status : Nat} (hstatus : 400 ≤ status) (code : String) (message : Str)
    (hinv : s'.invocations = s.invocations) (hqueue : s'.scheduler = s.scheduler) :
    Accounted s none (.ok (errorResponse Y status code message), s') where
  result := by
    rw [answers_response, errorResponse]
    exact Or.inr ⟨by simp only []; omega, hinv⟩
  queue := by simp [hqueue]
  accepted := by
    rw [answers_response, errorResponse]
    exact iff_of_false (by simp only []; omega) Bool.false_ne_true

end Accounted

namespace InvokeRequest

section
variable (Y : Yojson) (env : Env) (id : InvocationId) (tenant : TenantId) (fn : FunctionName) (q body : Str) (d : Int64)
  {s : ServerState} (hid : id.toStr = numbered (s.invocations.length + 1))
include hid

/-- A result is recorded with the answer 200; an error is answered 404. -/
theorem accounted_respond {s' : ServerState} (hinv : s'.invocations = s.invocations)
    (hqueue : s'.scheduler = s.scheduler) (result : Except Error InvocationResult) :
    Accounted s none (respond Y id result s') := by
  cases result with
  | error e => exact Accounted.refused Y (by decide) "NOT_FOUND" e.toString hinv hqueue
  | ok a =>
    refine ⟨Or.inl ⟨id, a, hid, ⟨_, rfl, rfl⟩, ?_⟩, ?_, ?_⟩
    · rw [← hinv]
      rfl
    · rw [← hqueue, Option.toList_none, List.append_nil]
      rfl
    · refine iff_of_false ?_ Bool.false_ne_true
      rintro ⟨response, hok, hstatus⟩
      cases hok
      cases hstatus

theorem accounted_invokeAccepted : Accounted s none (invokeAccepted Y env id tenant fn q body d s) := by
  unfold invokeAccepted
  cases hq : (Qualifier.ofStringExn q : Outcome Empty Qualifier) with
  | error e => exact e.elim
  | raised x => exact Accounted.raised x rfl rfl
  | ok q' =>
    rw [Prog.lift_ok_bind]
    cases hrun : runOne Y env.worker s.artifactStore s.fs s.registry id tenant fn q' body d s.qjs with
    | mk r qjs =>
      cases r with
      | raised x =>
        have hserver : runOnServer Y env.worker id tenant fn q' body d s = (.raised x, { s with qjs }) := by
          simp only [runOnServer, hrun]
        rw [Prog.bind_of_raised hserver]
        exact Accounted.raised x rfl rfl
      | ok a =>
        have hserver : runOnServer Y env.worker id tenant fn q' body d s = (.ok (.ok a), { s with qjs }) := by
          simp only [runOnServer, hrun]
        rw [Prog.bind_of_ok hserver, Prog.modify_bind]
        refine accounted_respond Y id hid ?_ ?_ (.ok a)
        · rfl
        · rfl
      | error e =>
        have hserver : runOnServer Y env.worker id tenant fn q' body d s = (.ok (.error e), { s with qjs }) := by
          simp only [runOnServer, hrun]
        rw [Prog.bind_of_ok hserver, Prog.modify_bind]
        refine accounted_respond Y id hid ?_ ?_ (.error e)
        · rfl
        · rfl

theorem accounted_invokeSync : Accounted s none (invokeSync Y env id tenant fn q body d s) := by
  obtain ⟨-, message, heq⟩ | ⟨-, admission, heq, -⟩ := invokeSync_cases Y env id tenant fn body d (s := s) q
  · rw [heq]
    exact Accounted.refused Y (by decide) "RATE_OR_QUOTA_EXCEEDED" message rfl rfl
  · rw [heq]
    have h := accounted_invokeAccepted Y env id tenant fn q body d (s := { s with admission }) hid
    exact ⟨h.result, h.queue, h.accepted⟩

end

/-- The entry of the queue that a request asks for (mirage_lambda_control.ml:134-137). -/
def pendingOf (s : ServerState) (i : InvokeRequest) : Option Scheduler.Pending :=
  match (InvocationId.ofStringExn (str "inv-" ++ decimal (s.invocations.length + 1)) : Outcome Empty InvocationId),
    (s.admission.admitRequest i.tenant (i.env.nowMs + 5000) i.env.nowMs i.body.length).1,
    (Qualifier.ofStringExn i.qualifier : Outcome Empty Qualifier) with
  | .ok id, .ok (), .ok q =>
    if i.async then
      some { invocationId := id, tenant := i.tenant, functionName := i.functionName, qualifier := q, eventJson := i.body
             deadlineMs := i.env.nowMs + 5000, enqueueTimeMs := i.env.nowMs }
    else none
  | _, _, _ => none

/-- **What an invocation leaves**: a result under the next number, or its entry at the end of the queue, and a
response that says which. -/
theorem accounted_handle (Y : Yojson) (i : InvokeRequest) (s : ServerState) :
    Accounted s (pendingOf s i) (i.handle Y s) := by
  unfold handle pendingOf
  obtain ⟨x, hraised, heq⟩ | ⟨id, hid, ⟨-, e, hrefused, heq⟩ | ⟨-, admission, hadmitted, heq⟩⟩ :=
    handleInvoke_cases Y i.env i.tenant i.functionName i.body (s := s) i.qualifier i.async
  · rw [heq, hraised]
    exact Accounted.raised x rfl rfl
  · rw [heq, hrefused, hid]
    exact Accounted.refused Y (by decide) "RATE_OR_QUOTA_EXCEEDED" e.toString rfl rfl
  · rw [heq, hadmitted, hid]
    cases hasync : i.async with
    | false =>
      have h := accounted_invokeSync Y i.env id i.tenant i.functionName i.qualifier i.body (i.env.nowMs + 5000)
        (s := { s with admission }) (Checked.ofStringExn_eq_ok.1 hid)
      cases (Qualifier.ofStringExn i.qualifier : Outcome Empty Qualifier) with
      | ok q => exact ⟨h.result, h.queue, h.accepted⟩
      | error e => exact e.elim
      | raised x => exact ⟨h.result, h.queue, h.accepted⟩
    | true =>
      simp only [if_true, invokeAsync]
      cases (Qualifier.ofStringExn i.qualifier : Outcome Empty Qualifier) with
      | error e => exact e.elim
      | raised x => exact Accounted.raised x rfl rfl
      | ok q =>
        simp only [Prog.lift_ok_bind, Prog.modify_bind]
        refine ⟨Or.inr ⟨?_, rfl⟩, rfl, iff_of_true ⟨_, rfl, rfl⟩ rfl⟩
        rintro ⟨response, hok, hstatus⟩
        cases hok
        cases hstatus

end InvokeRequest

/-! ## Runs -/

/-- The results have the numbers from 1 on, in order. -/
def InOrder (s : ServerState) : Prop :=
  (s.invocations.bindings.map fun b => b.1.toStr) = (List.range s.invocations.length).map fun k => numbered (k + 1)

/-- The next number is free. -/
theorem InOrder.next_free {s : ServerState} (h : InOrder s) {id : InvocationId}
    (hid : id.toStr = numbered (s.invocations.length + 1)) : s.invocations.findOpt id = none := by
  rw [Hashtbl.findOpt_eq_none_iff]
  intro hmem
  obtain ⟨b, hb, rfl⟩ := List.mem_map.1 hmem
  have hkey : b.1.toStr ∈ s.invocations.bindings.map fun b => b.1.toStr := List.mem_map.2 ⟨b, hb, rfl⟩
  rw [h] at hkey
  obtain ⟨k, hk, heq⟩ := List.mem_map.1 hkey
  rw [hid] at heq
  have := numbered_injective heq
  have := List.mem_range.1 hk
  omega

/-- **A request records one result or none.** -/
theorem records_after (Y : Yojson) {s : ServerState} (h : InOrder s) (r : HttpRequest × Env) :
    (∃ (id : InvocationId) (a : InvocationResult), id.toStr = numbered (s.invocations.length + 1) ∧
      (∃ i, invocationOf s.config r = some i) ∧ Answers 200 (callback Y r.2 r.1 s) ∧
      (after Y s r).invocations.bindings = s.invocations.bindings ++ [(id, a)]) ∨
    (¬ ((∃ i, invocationOf s.config r = some i) ∧ Answers 200 (callback Y r.2 r.1 s)) ∧
      (after Y s r).invocations = s.invocations) := by
  obtain ⟨i, hi, heq⟩ | ⟨hno, -, -, -, hinv⟩ := after_cases Y s r
  · rw [after, heq]
    obtain ⟨id, a, hid, hanswer, hrecord⟩ | ⟨hanswer, hsame⟩ := (i.accounted_handle Y s).result
    · refine Or.inl ⟨id, a, hid, ⟨i, hi⟩, hanswer, ?_⟩
      rw [hrecord, Hashtbl.bindings_replace (h.next_free hid)]
    · exact Or.inr ⟨fun hboth => hanswer hboth.2, hsame⟩
  · refine Or.inr ⟨?_, hinv⟩
    rintro ⟨⟨i, hi⟩, -⟩
    rw [hno] at hi
    cases hi

theorem InOrder.after {Y : Yojson} {s : ServerState} (h : InOrder s) (r : HttpRequest × Env) :
    InOrder (after Y s r) := by
  obtain ⟨id, a, hid, -, -, hadded⟩ | ⟨-, hsame⟩ := records_after Y h r
  · unfold InOrder Hashtbl.length at *
    rw [hadded, List.map_append, List.length_append, List.length_singleton, List.range_succ, List.map_append, h]
    simp [hid]
  · unfold InOrder
    rw [hsame]
    exact h

/-- **Results are numbered in the order in which they are answered, and none is lost or replaced.** After any run from a
new server the keys of the table are `inv-1`, `inv-2` and so on; the next request adds the next one exactly when it is
an invocation that is answered 200; and whatever follows only adds to the end. -/
theorem results_are_append_only (Y : Yojson) (config : Config) (fs : FileSystem) (s₀ : ServerState)
    (hs₀ : makeState config fs = .ok s₀) (requests : List (HttpRequest × Env)) :
    let s := handleAll Y s₀ requests
    (s.invocations.bindings.map fun b => b.1.toStr) = (List.range s.invocations.length).map (fun k => numbered (k + 1)) ∧
      (∀ r, (∃ i, invocationOf s.config r = some i) ∧ Answers 200 (callback Y r.2 r.1 s) ↔
        ∃ b, (after Y s r).invocations.bindings = s.invocations.bindings ++ [b]) ∧
      ∀ rest, s.invocations.bindings <+: (handleAll Y s rest).invocations.bindings := by
  intro s
  have hstart : InOrder s₀ := by
    have hfresh := History.fresh_makeState hs₀
    unfold InOrder
    rw [hfresh.invocations]
    rfl
  have hs : InOrder s := Run.invariant (fun s r hs => hs.after r) hstart (served Y s₀ requests)
  refine ⟨hs, fun r => ?_, fun rest => ?_⟩
  · obtain ⟨id, a, -, hi, hanswer, hadded⟩ | ⟨hno, hsame⟩ := records_after Y hs r
    · exact iff_of_true ⟨hi, hanswer⟩ ⟨_, hadded⟩
    · refine iff_of_false hno ?_
      rintro ⟨b, hb⟩
      rw [hsame] at hb
      simpa using congrArg List.length hb
  · have hprefix : InOrder (handleAll Y s rest) ∧ s.invocations.bindings <+: (handleAll Y s rest).invocations.bindings := by
      refine Run.invariant (I := fun s' : ServerState =>
        InOrder s' ∧ s.invocations.bindings <+: s'.invocations.bindings) (fun s' r hs' => ⟨hs'.1.after r, ?_⟩)
        ⟨hs, List.prefix_rfl⟩ (served Y s rest)
      obtain ⟨id, a, -, -, -, hadded⟩ | ⟨-, hsame⟩ := records_after Y hs'.1 r
      · rw [hadded]
        exact hs'.2.trans (List.prefix_append _ _)
      · rw [hsame]
        exact hs'.2
    exact hprefix.2

/-- The entry of the queue that a request asks for. -/
def entryOf (s : ServerState) (r : HttpRequest × Env) : List Scheduler.Pending :=
  ((invocationOf s.config r).bind (InvokeRequest.pendingOf s)).toList

/-- **What is accepted with 202 waits.** After any run the queue is what it was, followed by the entries of the
asynchronous invocations that were served, in order; a request is answered 202 exactly when it has an entry. So none
of them is ever taken out, and nothing is recorded for one. -/
theorem accepted_async_waits (Y : Yojson) (s : ServerState) (requests : List (HttpRequest × Env)) :
    (handleAll Y s requests).scheduler.queue = s.scheduler.queue ++ Run.trace (after Y) entryOf s (served Y s requests) ∧
      ∀ s' r i, invocationOf s'.config r = some i →
        (Answers 202 (callback Y r.2 r.1 s') ↔ entryOf s' r ≠ []) ∧
        (Answers 202 (callback Y r.2 r.1 s') → (after Y s' r).invocations = s'.invocations) := by
  constructor
  · refine Run.list_eq_trace (v := fun s : ServerState => s.scheduler.queue) (fun s r => ?_) s (served Y s requests)
    unfold entryOf
    obtain ⟨i, hi, heq⟩ | ⟨hno, -, -, hqueue, -⟩ := after_cases Y s r
    · rw [after, heq, hi, (i.accounted_handle Y s).queue]
      rfl
    · rw [hqueue, hno]
      simp
  · intro s' r i hi
    have h := i.accounted_handle Y s'
    rw [after, callback_of_invocation hi, h.accepted, entryOf, hi, Option.bind_some]
    refine ⟨?_, fun hentry => ?_⟩
    · cases InvokeRequest.pendingOf s' i with
      | none => simp
      | some p => simp
    · obtain ⟨-, -, -, ⟨response, hok, hstatus⟩, -⟩ | ⟨-, hsame⟩ := h.result
      · obtain ⟨response', hok', hstatus'⟩ := h.accepted.2 hentry
        rw [hok] at hok'
        cases hok'
        rw [hstatus] at hstatus'
        cases hstatus'
      · exact hsame

open MirageLambda.Bundle (sampleYojson)

/-- An asynchronous invocation records nothing, and the first result will be `inv-1`. -/
theorem results_are_append_only_sample :
    (handleAll sampleYojson sampleState [(samplePost, sampleEnv)]).invocations.bindings = [] ∧
      ∀ rest, (handleAll sampleYojson sampleState [(samplePost, sampleEnv)]).invocations.bindings <+:
        (handleAll sampleYojson (handleAll sampleYojson sampleState [(samplePost, sampleEnv)]) rest).invocations.bindings := by
  obtain ⟨hkeys, -, hprefix⟩ := results_are_append_only sampleYojson (defaultConfig (str "/srv")) ⟨fun _ => none⟩
    sampleState makeState_sample [(samplePost, sampleEnv)]
  have hlen : (handleAll sampleYojson sampleState [(samplePost, sampleEnv)]).invocations.length = 0 := by decide +kernel
  rw [hlen] at hkeys
  exact ⟨List.map_eq_nil_iff.1 hkeys, hprefix⟩

/-- It waits in the queue. -/
theorem accepted_async_waits_sample :
    ∃ p, (handleAll sampleYojson sampleState [(samplePost, sampleEnv)]).scheduler.queue = [p] ∧
      p.invocationId.toStr = numbered 1 := by
  have hrun := (accepted_async_waits sampleYojson sampleState [(samplePost, sampleEnv)]).1
  obtain ⟨p, hp, hid⟩ : ∃ p, entryOf sampleState (samplePost, sampleEnv) = [p] ∧ p.invocationId.toStr = numbered 1 :=
    ⟨_, rfl, by decide +kernel⟩
  refine ⟨p, ?_, hid⟩
  rw [hrun, served_singleton (by decide +kernel), Run.trace, Run.trace, hp]
  rfl

end MirageLambda
