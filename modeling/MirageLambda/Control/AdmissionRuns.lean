import MirageLambda.Control.Admission
import MirageLambda.Lib.Run

/-!
# The bytes that wait (control/admission.ml:45-81)

`admit` adds a request to two counts of its tenant, `queued` and `queued_bytes`. `accept_for_execution` takes the
oldest one out of the first count only, and `release` touches neither, so `queued_bytes` never goes down. A `Ledger`
keeps the sizes of the requests that are admitted and not yet accepted beside the counts; `balances_iff` says in
which runs the two agree.
-/

namespace MirageLambda
open OCaml

namespace Admission

/-- A call on the admission state. -/
inductive Call where
  | setQuota (tenant : TenantId) (q : TenantQuota)
  | admission (tenant : TenantId) (deadlineMs nowMs : Int64) (requestBytes : Int)
  | accept (tenant : TenantId)
  | release (tenant : TenantId)

/-- The counts, and for each tenant the sizes of the requests that wait, the oldest first. -/
structure Ledger where
  counts : Admission
  pending : TenantId → List Int

def Ledger.start : Ledger := { counts := .make, pending := fun _ => [] }

/-- A call that ends with an error changes nothing; an accept takes the oldest request out of the queue. -/
def Ledger.step (s : Ledger) : Call → Ledger
  | .setQuota tenant q => { s with counts := s.counts.setQuota tenant q }
  | .admission tenant deadlineMs nowMs requestBytes =>
    let admitted := s.counts.admitRequest tenant deadlineMs nowMs requestBytes
    match admitted.1 with
    | .ok () => ⟨admitted.2, Function.update s.pending tenant (s.pending tenant ++ [requestBytes])⟩
    | _ => ⟨admitted.2, s.pending⟩
  | .accept tenant =>
    let accepted := s.counts.acceptForExecution tenant
    match accepted.1 with
    | .ok () => ⟨accepted.2, Function.update s.pending tenant (s.pending tenant).tail⟩
    | _ => ⟨accepted.2, s.pending⟩
  | .release tenant => { s with counts := s.counts.release tenant }

def Ledger.run (calls : List Call) : Ledger := calls.foldl Ledger.step .start

/-- **The accounts balance.** The counted bytes are those that wait, there are none when nothing is queued, and a
tenant for which nothing waits is not refused for queued bytes. -/
structure Balanced (s : Ledger) : Prop where
  bytes : ∀ tenant, counter s.counts.queuedBytes tenant = (s.pending tenant).sum
  zero : ∀ tenant, counter s.counts.queued tenant = 0 → counter s.counts.queuedBytes tenant = 0
  served : ∀ tenant, s.pending tenant = [] → ∀ deadlineMs nowMs requestBytes, Fits 63 requestBytes →
    requestBytes ≤ (s.counts.quotaFor tenant).maxQueuedBytes →
      (s.counts.admitRequest tenant deadlineMs nowMs requestBytes).1 ≠
        .error (Error.make .payloadTooLarge .quotaError (str "queued bytes exceeded") false)

/-- The sum of bytes of a request that is admitted is a 63-bit integer. -/
def Call.SumFits (t : Admission) : Call → Prop
  | .admission tenant deadlineMs nowMs requestBytes =>
    t.Admits tenant deadlineMs nowMs requestBytes → Fits 63 (counter t.queuedBytes tenant + requestBytes)
  | _ => True

/-- The condition on a step: an accept that succeeds finds no request, or an empty one, at the head of the queue, and
a request that is admitted does not overflow the sum. -/
def TakesNoBytes (s : Ledger) : Call → Prop
  | .accept tenant => s.counts.HasRoom tenant → ∀ b ∈ (s.pending tenant).head?, b = 0
  | call => call.SumFits s.counts

/-! ## Steps -/

/-- The number of requests is right in every run. -/
def Counted (s : Ledger) : Prop := ∀ tenant, counter s.counts.queued tenant = (s.pending tenant).length

/-- The number of bytes. -/
def Summed (s : Ledger) : Prop := ∀ tenant, counter s.counts.queuedBytes tenant = (s.pending tenant).sum

/-- What an admission does to the ledger: nothing, or one more request that waits. -/
theorem step_admission (s : Ledger) (tenant : TenantId) (d n : Int64) (b : Int) :
    (¬ s.counts.Admits tenant d n b ∧ s.step (.admission tenant d n b) = s) ∨
      (s.counts.Admits tenant d n b ∧ s.step (.admission tenant d n b) =
        ⟨{ s.counts with
            queued := s.counts.queued.replace tenant (counter s.counts.queued tenant + 1)
            queuedBytes := s.counts.queuedBytes.replace tenant (wrap 63 (counter s.counts.queuedBytes tenant + b)) },
          Function.update s.pending tenant (s.pending tenant ++ [b])⟩) := by
  rcases s.counts.admitRequest_cases tenant d n b with ⟨hrefused, e, heq⟩ | ⟨hadmits, heq⟩
  · refine Or.inl ⟨hrefused, ?_⟩
    simp only [Ledger.step, heq]
  · refine Or.inr ⟨hadmits, ?_⟩
    simp only [Ledger.step, heq]

/-- What an accept does: nothing, or the oldest request leaves and its bytes stay. -/
theorem step_accept (s : Ledger) (tenant : TenantId) :
    (¬ s.counts.HasRoom tenant ∧ s.step (.accept tenant) = s) ∨
      (s.counts.HasRoom tenant ∧
        (s.step (.accept tenant)).pending = Function.update s.pending tenant (s.pending tenant).tail ∧
        (s.step (.accept tenant)).counts.queuedBytes = s.counts.queuedBytes ∧
        ∀ u, counter (s.step (.accept tenant)).counts.queued u =
          if u = tenant ∧ counter s.counts.queued tenant > 0 then counter s.counts.queued tenant - 1
          else counter s.counts.queued u) := by
  rcases s.counts.acceptForExecution_cases tenant with ⟨hfull, e, heq⟩ | ⟨hroom, hok, _, hqueued, hbytes⟩
  · refine Or.inl ⟨hfull, ?_⟩
    simp only [Ledger.step, heq]
  · refine Or.inr ⟨hroom, ?_⟩
    simp only [Ledger.step, hok]
    exact ⟨trivial, hbytes, hqueued⟩

theorem queued_release (t : Admission) (tenant : TenantId) :
    (t.release tenant).queued = t.queued ∧ (t.release tenant).queuedBytes = t.queuedBytes := by
  unfold release
  simp only []
  split <;> exact ⟨rfl, rfl⟩

theorem counted_step (s : Ledger) (call : Call) (h : Counted s) : Counted (s.step call) := by
  cases call with
  | setQuota tenant q => exact h
  | admission tenant d n b =>
    rcases step_admission s tenant d n b with ⟨_, heq⟩ | ⟨_, heq⟩
    · rw [heq]
      exact h
    · rw [heq]
      intro u
      by_cases hu : u = tenant
      · subst hu
        simp [h u]
      · simp [hu, h u]
  | accept tenant =>
    rcases step_accept s tenant with ⟨_, heq⟩ | ⟨_, hpending, _, hqueued⟩
    · rw [heq]
      exact h
    · intro u
      rw [hqueued, hpending]
      have htenant := h tenant
      by_cases hu : u = tenant
      · subst hu
        cases hp : s.pending u with
        | nil => simp [htenant, hp]
        | cons b rest => simp [htenant, hp]
      · simp [hu, h u]
  | release tenant =>
    intro u
    rw [Ledger.step, (queued_release s.counts tenant).1]
    exact h u

/-- A step keeps the bytes right exactly when it takes none out of the queue. -/
theorem summed_step_iff (s : Ledger) (call : Call) (h : Summed s) : Summed (s.step call) ↔ TakesNoBytes s call := by
  cases call with
  | setQuota tenant q => exact iff_of_true h trivial
  | admission tenant d n b =>
    rcases step_admission s tenant d n b with ⟨hrefused, heq⟩ | ⟨hadmits, heq⟩
    · rw [heq]
      exact iff_of_true h fun hadmits => absurd hadmits hrefused
    · have hexact : Fits 63 (counter s.counts.queuedBytes tenant + b) ↔ Summed (s.step (.admission tenant d n b)) := by
        rw [← wrap_eq_self_iff (by decide), heq]
        constructor
        · intro hwrap u
          by_cases hu : u = tenant
          · subst hu
            simp [hwrap, ← h u]
          · simp [hu, h u]
        · intro hafter
          have htenant := hafter tenant
          simp only [counter_replace, if_true, Function.update_self, List.sum_append, List.sum_singleton] at htenant
          rw [htenant, h tenant]
      rw [← hexact]
      exact ⟨fun hfits _ => hfits, fun hfits => hfits hadmits⟩
  | release tenant =>
    refine iff_of_true ?_ trivial
    intro u
    rw [Ledger.step, (queued_release s.counts tenant).2]
    exact h u
  | accept tenant =>
    rw [TakesNoBytes]
    rcases step_accept s tenant with ⟨hfull, heq⟩ | ⟨hroom, hpending, hbytes, _⟩
    · rw [heq]
      exact iff_of_true h fun hroom => absurd hroom hfull
    · have htenant := h tenant
      constructor
      · intro hafter _ b hb
        have hsum := hafter tenant
        rw [hbytes, hpending, Function.update_self, htenant] at hsum
        obtain ⟨rest, hrest⟩ : ∃ rest, s.pending tenant = b :: rest := List.head?_eq_some_iff.1 hb
        rw [hrest, List.sum_cons, List.tail_cons] at hsum
        omega
      · intro htakes u
        rw [hbytes, hpending]
        by_cases hu : u = tenant
        · subst hu
          rw [Function.update_self, htenant]
          cases hp : s.pending u with
          | nil => rfl
          | cons b rest =>
            have hb : b = 0 := htakes hroom b (by rw [hp]; rfl)
            rw [hb, List.sum_cons, List.tail_cons, zero_add]
        · rw [Function.update_of_ne hu]
          exact h u

/-! ## Runs -/

/-- Once the bytes are right, the rest follows from the number of requests. -/
theorem balanced_iff {s : Ledger} (h : Counted s) : Balanced s ↔ Summed s := by
  refine ⟨Balanced.bytes, ?_⟩
  intro hsum
  refine ⟨hsum, ?_, ?_⟩
  · intro tenant hzero
    rw [h tenant, Int.natCast_eq_zero, List.length_eq_zero_iff] at hzero
    rw [hsum tenant, hzero, List.sum_nil]
  · intro tenant hnone d n b hint hb herr
    have hzero : counter s.counts.queuedBytes tenant = 0 := by rw [hsum tenant, hnone, List.sum_nil]
    have hwrap : wrap 63 (counter s.counts.queuedBytes tenant + b) = b := by
      rw [hzero, zero_add]
      exact hint.wrap_eq
    have hfits : ¬ wrap 63 (counter s.counts.queuedBytes tenant + b) > (s.counts.quotaFor tenant).maxQueuedBytes := by
      rw [hwrap]
      exact not_lt.2 hb
    simp only [admitRequest, hfits, if_false] at herr
    split at herr
    · cases herr
    · split at herr
      · cases herr
      · cases herr

/-- **Admission's byte accounts balance** along a run exactly when no accept takes a request with bytes out of the
queue and no sum overflows. -/
theorem balances_iff (calls : List Call) :
    (∀ pre, pre <+: calls → Balanced (.run pre)) ↔ Run.Along Ledger.step TakesNoBytes .start calls := by
  have hstart : Counted .start := fun tenant => rfl
  have hsummed : Summed .start := fun tenant => rfl
  have hall : ∀ pre, Counted (.run pre) := Run.invariant counted_step hstart
  rw [← Run.invariant_iff_along counted_step (fun s call _ => summed_step_iff s call) hstart hsummed calls]
  constructor
  · intro h pre hpre
    exact (balanced_iff (hall pre)).1 (h pre hpre)
  · intro h pre hpre
    exact (balanced_iff (hall pre)).2 (h pre hpre)

/-- One request of 64 MiB is admitted, executed and done. -/
def executedRun (tenant : TenantId) : List Call :=
  [.admission tenant 5000 0 (64 * 1024 * 1024), .accept tenant, .release tenant]

/-- Nothing waits, and the tenant's next request is refused for queued bytes. -/
theorem idle_tenant_refused :
    let acme : TenantId := ⟨str "acme", by decide⟩
    let s := Ledger.run (executedRun acme)
    counter s.counts.queued acme = 0 ∧ counter s.counts.queuedBytes acme = 64 * 1024 * 1024 ∧
      (s.counts.admitRequest acme 5000 0 1).1 =
        .error (Error.make .payloadTooLarge .quotaError (str "queued bytes exceeded") false) ∧
      ¬ Balanced s := by
  intro acme s
  have hqueued : counter s.counts.queued acme = 0 := by decide +kernel
  have hbytes : counter s.counts.queuedBytes acme = 64 * 1024 * 1024 := by decide +kernel
  refine ⟨hqueued, hbytes, by decide +kernel, ?_⟩
  intro h
  have hzero := h.zero acme hqueued
  rw [hbytes] at hzero
  cases hzero

end Admission
end MirageLambda
