import MirageLambda.Lib.Hashtbl
import MirageLambda.Lib.MachineInt
import MirageLambda.Common.Ids

/-!
# Admission control (control/admission.ml)

Quotas and three counters for each tenant, in hash tables where a missing entry counts as 0. The
counters are OCaml integers, here `Int`. Two of them move by one, away from the bound that was just tested,
so they cannot leave the 63 bits of an `int`; the sum of bytes can, and wraps.
-/

namespace MirageLambda
open OCaml

namespace Admission

/-- `tenant_quota` (admission.ml:7). Nothing reads `rate_per_sec`. -/
structure TenantQuota where
  ratePerSec : Int
  maxConcurrent : Int
  maxQueued : Int
  maxQueuedBytes : Int
deriving DecidableEq, Repr

/-- `default_quota` (admission.ml:14). -/
def defaultQuota : TenantQuota :=
  { ratePerSec := 100, maxConcurrent := 10, maxQueued := 1000, maxQueuedBytes := 64 * 1024 * 1024 }

end Admission

/-- `Admission.t` (admission.ml:21). -/
structure Admission where
  quotas : Hashtbl TenantId Admission.TenantQuota
  concurrent : Hashtbl TenantId Int
  queued : Hashtbl TenantId Int
  queuedBytes : Hashtbl TenantId Int

namespace Admission

/-- `make` (admission.ml:28). -/
def make : Admission := { quotas := .empty, concurrent := .empty, queued := .empty, queuedBytes := .empty }

/-- `set_quota` (admission.ml:35). -/
def setQuota (t : Admission) (tenant : TenantId) (q : TenantQuota) : Admission :=
  { t with quotas := t.quotas.replace tenant q }

/-- `quota_for` (admission.ml:37). -/
def quotaFor (t : Admission) (tenant : TenantId) : TenantQuota := (t.quotas.findOpt tenant).getD defaultQuota

/-- `Hashtbl.find_opt … |> function Some n -> n | None -> 0`. -/
def counter (h : Hashtbl TenantId Int) (tenant : TenantId) : Int := (h.findOpt tenant).getD 0

/-- `deadline_impossible` (admission.ml:41). -/
def deadlineImpossible (deadlineMs nowMs : Int64) (minWindowMs : Int) : Bool :=
  deadlineMs - nowMs < Int64.ofInt minWindowMs

/-- `admit` (admission.ml:46); the bare word is a tactic of Lean. -/
def admitRequest (t : Admission) (tenant : TenantId) (deadlineMs nowMs : Int64) (requestBytes : Int) :
    Outcome Error Unit × Admission :=
  let q := t.quotaFor tenant
  let queued := counter t.queued tenant
  let queuedBytes := counter t.queuedBytes tenant
  if deadlineImpossible deadlineMs nowMs 10 then
    (.error (Error.make .invocationTimeout .quotaError (str "impossible deadline") false), t)
  else if queued ≥ q.maxQueued then
    (.error (Error.make .rateOrQuotaExceeded .quotaError (str "queue full") true), t)
  else if wrap 63 (queuedBytes + requestBytes) > q.maxQueuedBytes then
    (.error (Error.make .payloadTooLarge .quotaError (str "queued bytes exceeded") false), t)
  else
    (.ok (), { t with
      queued := t.queued.replace tenant (queued + 1)
      queuedBytes := t.queuedBytes.replace tenant (wrap 63 (queuedBytes + requestBytes)) })

/-- `accept_for_execution` (admission.ml:65). -/
def acceptForExecution (t : Admission) (tenant : TenantId) : Outcome Error Unit × Admission :=
  let q := t.quotaFor tenant
  let concurrent := counter t.concurrent tenant
  if concurrent ≥ q.maxConcurrent then
    (.error (Error.make .rateOrQuotaExceeded .quotaError (str "max concurrent reached") true), t)
  else
    let t := { t with concurrent := t.concurrent.replace tenant (concurrent + 1) }
    let queued := counter t.queued tenant
    let t := if queued > 0 then { t with queued := t.queued.replace tenant (queued - 1) } else t
    (.ok (), t)

/-- `release` (admission.ml:79). -/
def release (t : Admission) (tenant : TenantId) : Admission :=
  let concurrent := counter t.concurrent tenant
  if concurrent > 0 then { t with concurrent := t.concurrent.replace tenant (concurrent - 1) } else t

/-! ## The concurrent count -/

@[simp] theorem counter_empty (tenant : TenantId) : counter .empty tenant = 0 := rfl

@[simp] theorem counter_replace (h : Hashtbl TenantId Int) (tenant u : TenantId) (n : Int) :
    counter (h.replace tenant n) u = if u = tenant then n else counter h u := by
  unfold counter
  rw [Hashtbl.findOpt_replace]
  split <;> rfl

/-- `admit` does not touch the concurrent counts. -/
@[simp] theorem concurrent_admitRequest (t : Admission) (tenant : TenantId) (d n : Int64) (b : Int) :
    (t.admitRequest tenant d n b).2.concurrent = t.concurrent := by
  unfold admitRequest
  simp only []
  repeat' split
  all_goals rfl

@[simp] theorem quotas_admitRequest (t : Admission) (tenant : TenantId) (d n : Int64) (b : Int) :
    (t.admitRequest tenant d n b).2.quotas = t.quotas := by
  unfold admitRequest
  simp only []
  repeat' split
  all_goals rfl

/-- The tenant may run one more invocation. -/
def HasRoom (t : Admission) (tenant : TenantId) : Prop :=
  counter t.concurrent tenant < (t.quotaFor tenant).maxConcurrent

instance (t : Admission) (tenant : TenantId) : Decidable (t.HasRoom tenant) :=
  inferInstanceAs (Decidable (counter t.concurrent tenant < (t.quotaFor tenant).maxConcurrent))

/-- The request passes the three tests of `admit`. -/
structure Admits (t : Admission) (tenant : TenantId) (deadlineMs nowMs : Int64) (requestBytes : Int) : Prop where
  deadline : deadlineImpossible deadlineMs nowMs 10 = false
  queue : counter t.queued tenant < (t.quotaFor tenant).maxQueued
  bytes : wrap 63 (counter t.queuedBytes tenant + requestBytes) ≤ (t.quotaFor tenant).maxQueuedBytes

/-- `admit` answers an error and changes nothing, or adds one request and its bytes to the queue counts. -/
theorem admitRequest_cases (t : Admission) (tenant : TenantId) (d n : Int64) (b : Int) :
    (¬ t.Admits tenant d n b ∧ ∃ e, t.admitRequest tenant d n b = (.error e, t)) ∨
      (t.Admits tenant d n b ∧ t.admitRequest tenant d n b = (.ok (), { t with
        queued := t.queued.replace tenant (counter t.queued tenant + 1)
        queuedBytes := t.queuedBytes.replace tenant (wrap 63 (counter t.queuedBytes tenant + b)) })) := by
  unfold admitRequest
  simp only []
  split
  · rename_i hdeadline
    refine Or.inl ⟨fun h => ?_, _, rfl⟩
    rw [h.deadline] at hdeadline
    cases hdeadline
  · rename_i hdeadline
    split
    · rename_i hqueue
      exact Or.inl ⟨fun h => absurd h.queue (not_lt.2 hqueue), _, rfl⟩
    · rename_i hqueue
      split
      · rename_i hbytes
        exact Or.inl ⟨fun h => absurd h.bytes (not_le.2 hbytes), _, rfl⟩
      · rename_i hbytes
        exact Or.inr ⟨⟨by simpa using hdeadline, not_le.1 hqueue, not_lt.1 hbytes⟩, rfl⟩

/-- `accept_for_execution` answers an error and changes nothing, or counts one more invocation of this
tenant and one request less in its queue. -/
theorem acceptForExecution_cases (t : Admission) (tenant : TenantId) :
    (¬ t.HasRoom tenant ∧ ∃ e, t.acceptForExecution tenant = (.error e, t)) ∨
      (t.HasRoom tenant ∧ (t.acceptForExecution tenant).1 = .ok () ∧
        (t.acceptForExecution tenant).2.concurrent =
          t.concurrent.replace tenant (counter t.concurrent tenant + 1) ∧
        (∀ u, counter (t.acceptForExecution tenant).2.queued u =
          if u = tenant ∧ counter t.queued tenant > 0 then counter t.queued tenant - 1 else counter t.queued u) ∧
        (t.acceptForExecution tenant).2.queuedBytes = t.queuedBytes) := by
  by_cases h : counter t.concurrent tenant ≥ (t.quotaFor tenant).maxConcurrent
  · refine Or.inl ⟨not_lt.2 h, ?_⟩
    simp only [acceptForExecution, h, if_true]
    exact ⟨_, rfl⟩
  · refine Or.inr ⟨not_le.1 h, ?_⟩
    simp only [acceptForExecution, h, if_false]
    by_cases hq : counter t.queued tenant > 0
    · simp only [hq, if_true, counter_replace, and_true, implies_true, and_self]
    · simp only [hq, if_false, and_false, implies_true, and_self]

/-- `release` takes one off this tenant's count, never below 0. -/
theorem counter_release (t : Admission) (tenant u : TenantId) :
    counter (t.release tenant).concurrent u =
      if u = tenant ∧ counter t.concurrent tenant > 0 then counter t.concurrent tenant - 1
      else counter t.concurrent u := by
  unfold release
  simp only []
  by_cases h : counter t.concurrent tenant > 0
  · simp only [h, if_true, counter_replace, and_true]
  · simp only [h, if_false, and_false]

/-- No count is negative. -/
def CountsNonneg (t : Admission) : Prop := ∀ tenant, 0 ≤ counter t.concurrent tenant

end Admission
end MirageLambda
