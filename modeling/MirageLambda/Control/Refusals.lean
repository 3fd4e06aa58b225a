import MirageLambda.Control.InvokeExits

/-!
# Refused invocations

A synchronous invocation passes two tests. `admit` counts the request in the tenant's queue;
`accept_for_execution` takes it out again and counts an execution. Where the first test passes and the second one
refuses, the client gets the same 429 as from the first, and the request stays in the queue counts: nothing runs for
it that would take it out.

`refusal_keeps_counts_iff` says that these are the only refusals that change a count.
-/

namespace MirageLambda
open OCaml Qjs

/-- Every tenant's three counts are what they were. -/
def Admission.SameCounts (t t' : Admission) : Prop :=
  ∀ u, counter t'.queued u = counter t.queued u ∧ counter t'.queuedBytes u = counter t.queuedBytes u ∧
    counter t'.concurrent u = counter t.concurrent u

/-- The handler ends with a response of this status. -/
def Answers (status : Nat) (r : Outcome Empty Response × ServerState) : Prop :=
  ∃ response, r.1 = .ok response ∧ response.status = status

/-- **The refusals that count.** `admit` takes the request, and the tenant runs as many invocations as it may. -/
structure RefusedLate (env : Env) (tenant : TenantId) (body : Str) (s : ServerState) : Prop where
  id : ∃ invocationId : InvocationId, invocationId.toStr = str "inv-" ++ decimal (s.invocations.length + 1)
  admits : s.admission.Admits tenant (env.nowMs + 5000) env.nowMs body.length
  full : ¬ s.admission.HasRoom tenant

namespace Admission

theorem sameCounts_refl (t : Admission) : t.SameCounts t := fun _ => ⟨rfl, rfl, rfl⟩

/-- An admitted request shows in the queue. -/
theorem not_sameCounts_of_admits {t : Admission} {tenant : TenantId} {d n : Int64} {b : Int}
    (h : t.Admits tenant d n b) : ¬ t.SameCounts (t.admitRequest tenant d n b).2 := by
  intro hsame
  have hqueued := (hsame tenant).1
  obtain ⟨hno, -⟩ | ⟨-, heq⟩ := t.admitRequest_cases tenant d n b
  · exact hno h
  · rw [heq, counter_replace, if_pos rfl] at hqueued
    omega

end Admission

section
variable (Y : Yojson) (env : Env) (tenant : TenantId) (fn : FunctionName) (body : Str) (s : ServerState)

/-- Once the execution is counted the answer is 200 or 404. -/
theorem invokeAccepted_status (invId : InvocationId) (qualifier : Str) (deadline : Int64) :
    ¬ Answers 429 (invokeAccepted Y env invId tenant fn qualifier body deadline s) := by
  rintro ⟨response, hok, hstatus⟩
  generalize hr : invokeAccepted Y env invId tenant fn qualifier body deadline s = r at hok
  obtain ⟨x, s'⟩ := r
  obtain rfl : x = .ok response := hok
  obtain ⟨q, s₁, -, hr⟩ := Prog.bind_eq_ok hr
  obtain ⟨result, s₂, -, hr⟩ := Prog.bind_eq_ok hr
  rw [Prog.modify_bind] at hr
  cases result with
  | ok a =>
    cases hr
    cases hstatus
  | error e =>
    cases hr
    cases hstatus

/-- A synchronous invocation is refused by `admit`, or by `accept_for_execution` with the request still counted, or
not answered 429 at all. -/
theorem handleInvoke_refusals (qualifier : Str) :
    (¬ RefusedLate env tenant body s ∧ (handleInvoke Y env tenant fn qualifier false body s).2 = s) ∨
    (RefusedLate env tenant body s ∧ Answers 429 (handleInvoke Y env tenant fn qualifier false body s) ∧
      (handleInvoke Y env tenant fn qualifier false body s).2.admission =
        (s.admission.admitRequest tenant (env.nowMs + 5000) env.nowMs body.length).2) ∨
    (¬ RefusedLate env tenant body s ∧ ¬ Answers 429 (handleInvoke Y env tenant fn qualifier false body s)) := by
  obtain ⟨x, hid, heq⟩ | ⟨id, hid, ⟨hno, e, -, heq⟩ | ⟨hadmits, admission, hadmitted, heq⟩⟩ :=
    handleInvoke_cases Y env tenant fn body (s := s) qualifier false
  · refine Or.inl ⟨?_, by rw [heq]⟩
    rintro ⟨⟨id, hval⟩, -, -⟩
    exact Checked.ne_of_ofStringExn_raised hid id hval
  · exact Or.inl ⟨fun h => hno h.admits, by rw [heq]⟩
  · have hval := Checked.ofStringExn_eq_ok.1 hid
    have hroom := s.admission.hasRoom_admitRequest tenant (env.nowMs + 5000) env.nowMs body.length
    simp only [hadmitted] at hroom
    rw [heq, hadmitted]
    simp only [Bool.false_eq_true, if_false]
    obtain ⟨hfull, message, hanswer⟩ | ⟨hhas, admission', heq', -⟩ :=
      invokeSync_cases Y env id tenant fn body (env.nowMs + 5000) (s := { s with admission }) qualifier
    · rw [hanswer]
      exact Or.inr (Or.inl ⟨⟨⟨id, hval⟩, hadmits, fun h => hfull (hroom.2 h)⟩, ⟨_, rfl, rfl⟩, rfl⟩)
    · rw [heq']
      exact Or.inr (Or.inr ⟨fun h => h.full (hroom.1 hhas), invokeAccepted_status Y env tenant fn body _ id qualifier _⟩)

end

/-- **A refused synchronous invocation leaves the counts as they were unless it is refused late.** -/
theorem refusal_keeps_counts_iff (Y : Yojson) (env : Env) (tenant : TenantId) (fn : FunctionName) (qualifier body : Str)
    (s : ServerState) :
    (Answers 429 (handleInvoke Y env tenant fn qualifier false body s) →
      s.admission.SameCounts (handleInvoke Y env tenant fn qualifier false body s).2.admission) ↔
    ¬ RefusedLate env tenant body s := by
  obtain ⟨hno, hsame⟩ | ⟨hlate, hanswer, heq⟩ | ⟨hno, hother⟩ := handleInvoke_refusals Y env tenant fn body s qualifier
  · rw [hsame]
    exact iff_of_true (fun _ => Admission.sameCounts_refl _) hno
  · rw [heq]
    exact iff_of_false (fun h => Admission.not_sameCounts_of_admits hlate.admits (h hanswer)) fun h => h hlate
  · exact iff_of_true (fun h => absurd h hother) hno

open MirageLambda.Bundle (sampleTenant sampleFunction sampleYojson)

/-- A server whose tenant runs ten invocations, the most it may by default. -/
def busyState : ServerState :=
  { sampleState with admission := { Admission.make with concurrent := Hashtbl.empty.replace sampleTenant 10 } }

/-- The tenant that may run no more is refused, and its queue is one request longer for it. -/
theorem refusal_counts_in_queue :
    Answers 429 (handleInvoke sampleYojson sampleEnv sampleTenant sampleFunction (str "prod") false [] busyState) ∧
      ¬ busyState.admission.SameCounts (handleInvoke sampleYojson sampleEnv sampleTenant sampleFunction (str "prod")
        false [] busyState).2.admission := by
  refine ⟨⟨_, rfl, rfl⟩, fun hsame => ?_⟩
  have hqueued : Admission.counter (handleInvoke sampleYojson sampleEnv sampleTenant sampleFunction (str "prod") false []
      busyState).2.admission.queued sampleTenant = 1 := by
    decide +kernel
  have hbefore := (hsame sampleTenant).1
  rw [hqueued] at hbefore
  exact absurd hbefore (by decide)

end MirageLambda
