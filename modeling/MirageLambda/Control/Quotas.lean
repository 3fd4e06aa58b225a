import MirageLambda.Control.AdmissionRuns

/-!
# Quotas (control/admission.ml:21-81)

Two results on whole runs of the admission calls.

* `within_quota_iff`: with fixed quotas a tenant stays inside its quota in every state, as long as no sum of bytes
  overflows the 63 bits of an `int`. The guard of `admit` compares the wrapped sum, which is negative then.
* `results_depend_on_own_calls`: what a tenant's calls return depends on that tenant's calls only.
-/

namespace MirageLambda
open OCaml

namespace Admission

/-- The tenant a call is for. -/
def Call.tenant : Call → TenantId
  | .setQuota tenant _ => tenant
  | .admission tenant _ _ _ => tenant
  | .accept tenant => tenant
  | .release tenant => tenant

/-- A call, with its result; `set_quota` and `release` return unit. -/
def perform (t : Admission) : Call → Outcome Error Unit × Admission
  | .setQuota tenant q => (.ok (), t.setQuota tenant q)
  | .admission tenant deadlineMs nowMs requestBytes => t.admitRequest tenant deadlineMs nowMs requestBytes
  | .accept tenant => t.acceptForExecution tenant
  | .release tenant => (.ok (), t.release tenant)

def step (t : Admission) (call : Call) : Admission := (t.perform call).2

@[simp] theorem quotas_acceptForExecution (t : Admission) (tenant : TenantId) :
    (t.acceptForExecution tenant).2.quotas = t.quotas := by
  unfold acceptForExecution
  simp only []
  repeat' split
  all_goals rfl

@[simp] theorem quotas_release (t : Admission) (tenant : TenantId) : (t.release tenant).quotas = t.quotas := by
  unfold release
  simp only []
  split <;> rfl

/-- A call that returns an error leaves the state as it is. -/
theorem perform_error {t : Admission} {call : Call} {e : Error} (h : (t.perform call).1 = .error e) :
    (t.perform call).2 = t := by
  cases call with
  | setQuota tenant q => cases h
  | release tenant => cases h
  | admission tenant d n b =>
    rcases t.admitRequest_cases tenant d n b with ⟨_, e', heq⟩ | ⟨_, heq⟩
    · rw [perform, heq]
    · rw [perform, heq] at h
      cases h
  | accept tenant =>
    rcases t.acceptForExecution_cases tenant with ⟨_, e', heq⟩ | ⟨_, hok, _⟩
    · rw [perform, heq]
    · rw [perform, hok] at h
      cases h

/-! ## Inside the quota -/

/-- The tenant's three counters are inside its quota. -/
structure WithinQuota (t : Admission) (tenant : TenantId) : Prop where
  concurrent : 0 ≤ counter t.concurrent tenant ∧ counter t.concurrent tenant ≤ (t.quotaFor tenant).maxConcurrent
  queued : 0 ≤ counter t.queued tenant ∧ counter t.queued tenant ≤ (t.quotaFor tenant).maxQueued
  bytes : 0 ≤ counter t.queuedBytes tenant ∧ counter t.queuedBytes tenant ≤ (t.quotaFor tenant).maxQueuedBytes

/-- A call that leaves the quotas alone and asks for a number of bytes that is not negative. -/
def Call.Sized : Call → Prop
  | .setQuota _ _ => False
  | .admission _ _ _ requestBytes => 0 ≤ requestBytes ∧ Fits 63 requestBytes
  | _ => True

/-- The calls of a run with fixed quotas. -/
abbrev SizedCall : Type := {call : Call // call.Sized}

def sizedStep (t : Admission) (call : SizedCall) : Admission := t.step call.1

/-- The bounds of a quota are not negative. -/
structure TenantQuota.Nonneg (q : TenantQuota) : Prop where
  concurrent : 0 ≤ q.maxConcurrent
  queued : 0 ≤ q.maxQueued
  bytes : 0 ≤ q.maxQueuedBytes

/-- Empty counters with a table of quotas. -/
def withQuotas (quotas : Hashtbl TenantId TenantQuota) : Admission := { make with quotas }

theorem quotaFor_congr {t t' : Admission} (h : t'.quotas = t.quotas) (tenant : TenantId) :
    t'.quotaFor tenant = t.quotaFor tenant := by
  rw [quotaFor, quotaFor, h]

/-- The sum of bytes is always an `int`. -/
theorem fits_sizedStep (t : Admission) (call : SizedCall) (h : ∀ tenant, Fits 63 (counter t.queuedBytes tenant)) :
    ∀ tenant, Fits 63 (counter (t.sizedStep call).queuedBytes tenant) := by
  obtain ⟨call, hsized⟩ := call
  cases call with
  | setQuota tenant q => exact absurd hsized id
  | admission tenant d n b =>
    rcases t.admitRequest_cases tenant d n b with ⟨_, e, heq⟩ | ⟨_, heq⟩
    · rw [sizedStep, step, perform, heq]
      exact h
    · intro u
      rw [sizedStep, step, perform, heq, counter_replace]
      split
      · exact fits_wrap (by decide) _
      · exact h u
  | accept tenant =>
    rcases t.acceptForExecution_cases tenant with ⟨_, e, heq⟩ | ⟨_, _, _, _, hbytes⟩
    · rw [sizedStep, step, perform, heq]
      exact h
    · rw [sizedStep, step, perform, hbytes]
      exact h
  | release tenant =>
    rw [sizedStep, step, perform, (queued_release t tenant).2]
    exact h

/-- Accepting an execution keeps every tenant inside its quota. -/
theorem withinQuota_accept {t : Admission} (h : ∀ u, t.WithinQuota u) (tenant u : TenantId) :
    (t.acceptForExecution tenant).2.WithinQuota u := by
  have hquota := quotaFor_congr (t.quotas_acceptForExecution tenant) u
  rcases t.acceptForExecution_cases tenant with ⟨_, e, heq⟩ | ⟨hroom, _, hconcurrent, hqueued, hbytes⟩
  · rw [heq]
    exact h u
  · refine ⟨?_, ?_, ?_⟩
    · rw [hquota, hconcurrent, counter_replace]
      by_cases hu : u = tenant
      · subst hu
        have hbefore := (h u).concurrent
        unfold HasRoom at hroom
        rw [if_pos rfl]
        omega
      · rw [if_neg hu]
        exact (h u).concurrent
    · rw [hquota, hqueued]
      have hbefore := (h u).queued
      by_cases hu : u = tenant ∧ counter t.queued tenant > 0
      · obtain ⟨rfl, hpos⟩ := hu
        rw [if_pos ⟨rfl, hpos⟩]
        omega
      · rw [if_neg hu]
        exact hbefore
    · rw [hquota, hbytes]
      exact (h u).bytes

theorem withinQuota_release {t : Admission} (h : ∀ u, t.WithinQuota u) (tenant u : TenantId) :
    (t.release tenant).WithinQuota u := by
  have hquota := quotaFor_congr (t.quotas_release tenant) u
  refine ⟨?_, ?_, ?_⟩
  · rw [hquota, counter_release]
    have hbefore := (h u).concurrent
    by_cases hu : u = tenant ∧ counter t.concurrent tenant > 0
    · obtain ⟨rfl, hpos⟩ := hu
      rw [if_pos ⟨rfl, hpos⟩]
      omega
    · rw [if_neg hu]
      exact hbefore
  · rw [hquota, (queued_release t tenant).1]
    exact (h u).queued
  · rw [hquota, (queued_release t tenant).2]
    exact (h u).bytes

/-- An admission whose sum does not overflow stays inside the quotas that its guards compare with. -/
theorem withinQuota_admitted {t : Admission} (h : ∀ u, t.WithinQuota u) {tenant : TenantId} {d n : Int64} {b : Int}
    (hb : 0 ≤ b) (hadmits : t.Admits tenant d n b) (hexact : Fits 63 (counter t.queuedBytes tenant + b))
    (u : TenantId) :
    WithinQuota { t with
      queued := t.queued.replace tenant (counter t.queued tenant + 1)
      queuedBytes := t.queuedBytes.replace tenant (wrap 63 (counter t.queuedBytes tenant + b)) } u := by
  have hwrap := hexact.wrap_eq
  have hbound := hadmits.bytes
  have hqueue := hadmits.queue
  rw [hwrap] at hbound ⊢
  refine ⟨(h u).concurrent, ?_, ?_⟩
  · show 0 ≤ counter (t.queued.replace _ _) u ∧ counter (t.queued.replace _ _) u ≤ (t.quotaFor u).maxQueued
    rw [counter_replace]
    by_cases hu : u = tenant
    · subst hu
      have hbefore := (h u).queued
      rw [if_pos rfl]
      omega
    · rw [if_neg hu]
      exact (h u).queued
  · show 0 ≤ counter (t.queuedBytes.replace _ _) u ∧ counter (t.queuedBytes.replace _ _) u ≤ (t.quotaFor u).maxQueuedBytes
    rw [counter_replace]
    by_cases hu : u = tenant
    · subst hu
      rw [if_pos rfl]
      exact ⟨Int.add_nonneg (h u).bytes.1 hb, hbound⟩
    · rw [if_neg hu]
      exact (h u).bytes

/-- An admission keeps every tenant inside its quota exactly when its sum does not overflow: a sum above the range
comes back negative, below every bound. -/
theorem withinQuota_admission_iff {t : Admission} (hfits : ∀ u, Fits 63 (counter t.queuedBytes u))
    (h : ∀ u, t.WithinQuota u) (tenant : TenantId) (d n : Int64) {b : Int} (hb : 0 ≤ b ∧ Fits 63 b) :
    (∀ u, (t.admitRequest tenant d n b).2.WithinQuota u) ↔ (Call.admission tenant d n b).SumFits t := by
  rcases t.admitRequest_cases tenant d n b with ⟨hrefused, e, heq⟩ | ⟨hadmits, heq⟩
  · rw [heq]
    exact iff_of_true h fun hadmits => absurd hadmits hrefused
  · rw [heq]
    constructor
    · intro hafter _
      have hnonneg := (hafter tenant).bytes.1
      rw [counter_replace, if_pos rfl] at hnonneg
      exact fits_add_of_wrap_nonneg (by decide) ⟨(h tenant).bytes.1, hfits tenant⟩ hb hnonneg
    · intro hexact
      exact withinQuota_admitted h hb.1 hadmits (hexact hadmits)

theorem withinQuota_sizedStep_iff (t : Admission) (call : SizedCall)
    (hfits : ∀ u, Fits 63 (counter t.queuedBytes u)) (h : ∀ u, t.WithinQuota u) :
    (∀ u, (t.sizedStep call).WithinQuota u) ↔ call.1.SumFits t := by
  obtain ⟨call, hsized⟩ := call
  cases call with
  | setQuota tenant q => exact absurd hsized id
  | admission tenant d n b => exact withinQuota_admission_iff hfits h tenant d n hsized
  | accept tenant => exact iff_of_true (withinQuota_accept h tenant) trivial
  | release tenant => exact iff_of_true (withinQuota_release h tenant) trivial

theorem withinQuota_withQuotas {quotas : Hashtbl TenantId TenantQuota}
    (h : ∀ tenant q, quotas.findOpt tenant = some q → q.Nonneg) (tenant : TenantId) :
    (withQuotas quotas).WithinQuota tenant := by
  have hquota : ((withQuotas quotas).quotaFor tenant).Nonneg := by
    unfold quotaFor
    cases hfind : quotas.findOpt tenant with
    | none =>
      show ((quotas.findOpt tenant).getD defaultQuota).Nonneg
      rw [hfind]
      exact ⟨by decide, by decide, by decide⟩
    | some q =>
      show ((quotas.findOpt tenant).getD defaultQuota).Nonneg
      rw [hfind]
      exact h tenant q hfind
  exact ⟨⟨le_refl 0, hquota.concurrent⟩, ⟨le_refl 0, hquota.queued⟩, ⟨le_refl 0, hquota.bytes⟩⟩

/-- **Every tenant stays inside its quota**, in every state of a run with fixed quotas, exactly when no admitted
request overflows the sum of its tenant's bytes. A call that returns an error changes nothing in any run. -/
theorem within_quota_iff (quotas : Hashtbl TenantId TenantQuota)
    (hquotas : ∀ tenant q, quotas.findOpt tenant = some q → q.Nonneg) (calls : List SizedCall) :
    ((∀ pre, pre <+: calls → ∀ tenant, (pre.foldl sizedStep (withQuotas quotas)).WithinQuota tenant) ∧
      ∀ pre call e, pre ++ [call] <+: calls →
        ((pre.foldl sizedStep (withQuotas quotas)).perform call.1).1 = .error e →
        ((pre.foldl sizedStep (withQuotas quotas)).perform call.1).2 = pre.foldl sizedStep (withQuotas quotas)) ↔
    Run.Along sizedStep (fun t call => call.1.SumFits t) (withQuotas quotas) calls := by
  have hstart : ∀ tenant, Fits 63 (counter (withQuotas quotas).queuedBytes tenant) := by
    intro tenant
    show Fits 63 0
    decide
  have hruns : (∀ pre, pre <+: calls → ∀ tenant, (pre.foldl sizedStep (withQuotas quotas)).WithinQuota tenant) ↔
      Run.Along sizedStep (fun t call => call.1.SumFits t) (withQuotas quotas) calls :=
    Run.invariant_iff_along (J := fun t : Admission => ∀ tenant, Fits 63 (counter t.queuedBytes tenant))
      fits_sizedStep withinQuota_sizedStep_iff hstart (withinQuota_withQuotas hquotas) calls
  rw [← hruns]
  refine ⟨And.left, fun h => ⟨h, ?_⟩⟩
  intro pre call e _ herr
  exact perform_error herr

/-- A request of one byte, then one of `max_int` bytes: the sum is `min_int`, below every bound. -/
def overflowingCalls (tenant : TenantId) : List SizedCall :=
  [⟨.admission tenant 5000 0 1, ⟨by decide, by decide⟩⟩,
   ⟨.admission tenant 5000 0 (2 ^ 62 - 1), ⟨by decide, by decide⟩⟩]

theorem queued_bytes_overflow :
    let acme : TenantId := ⟨str "acme", by decide⟩
    let t := (overflowingCalls acme).foldl sizedStep (withQuotas .empty)
    counter t.queuedBytes acme = -2 ^ 62 ∧ counter t.queued acme = 2 ∧ ¬ t.WithinQuota acme := by
  intro acme t
  have hbytes : counter t.queuedBytes acme = -2 ^ 62 := by decide +kernel
  refine ⟨hbytes, by decide +kernel, ?_⟩
  intro h
  have hnonneg := h.bytes.1
  rw [hbytes] at hnonneg
  omega

/-- Accepts and releases that match no admission, and a refused request, with a quota of one of each. -/
theorem within_quota_unmatched :
    let acme : TenantId := ⟨str "acme", by decide⟩
    let quotas := Hashtbl.empty.replace acme ⟨1, 1, 1, 1⟩
    let calls : List SizedCall := [⟨.release acme, trivial⟩, ⟨.accept acme, trivial⟩, ⟨.accept acme, trivial⟩,
      ⟨.admission acme 5000 0 2, ⟨by decide, by decide⟩⟩]
    ∀ pre, pre <+: calls → ∀ tenant, (pre.foldl sizedStep (withQuotas quotas)).WithinQuota tenant := by
  intro acme quotas calls
  have hquotas : ∀ tenant q, quotas.findOpt tenant = some q → q.Nonneg := by
    intro tenant q hq
    rw [Hashtbl.findOpt_replace] at hq
    split at hq
    · cases hq
      exact ⟨by decide, by decide, by decide⟩
    · cases hq
  refine ((within_quota_iff quotas hquotas calls).2 ?_).1
  refine ⟨trivial, trivial, trivial, ?_, trivial⟩
  intro _
  decide +kernel

/-! ## Tenants apart -/

/-- The states agree on everything that is the tenant's. -/
structure SameFor (tenant : TenantId) (t t' : Admission) : Prop where
  quota : t.quotaFor tenant = t'.quotaFor tenant
  concurrent : counter t.concurrent tenant = counter t'.concurrent tenant
  queued : counter t.queued tenant = counter t'.queued tenant
  bytes : counter t.queuedBytes tenant = counter t'.queuedBytes tenant

/-- The four values after a call for the tenant, from the four before. -/
theorem SameFor.perform {tenant : TenantId} {t t' : Admission} (h : SameFor tenant t t') {call : Call}
    (hown : call.tenant = tenant) :
    (t.perform call).1 = (t'.perform call).1 ∧ SameFor tenant (t.perform call).2 (t'.perform call).2 := by
  cases call with
  | setQuota u q =>
    obtain rfl : u = tenant := hown
    refine ⟨rfl, ?_, h.concurrent, h.queued, h.bytes⟩
    simp [Admission.perform, setQuota, quotaFor]
  | admission u d n b =>
    obtain rfl : u = tenant := hown
    simp only [Admission.perform, admitRequest, h.quota, h.queued, h.bytes]
    split
    · exact ⟨rfl, h⟩
    · split
      · exact ⟨rfl, h⟩
      · split
        · exact ⟨rfl, h⟩
        · exact ⟨rfl, h.quota, h.concurrent, by simp, by simp⟩
  | accept u =>
    obtain rfl : u = tenant := hown
    simp only [Admission.perform, acceptForExecution, h.quota, h.concurrent, h.queued]
    split
    · exact ⟨rfl, h⟩
    · split
      · exact ⟨rfl, h.quota, by simp, by simp, h.bytes⟩
      · exact ⟨rfl, h.quota, by simp, h.queued, h.bytes⟩
  | release u =>
    obtain rfl : u = tenant := hown
    refine ⟨rfl, ?_⟩
    simp only [Admission.perform, release, h.concurrent]
    split
    · exact ⟨h.quota, by simp, h.queued, h.bytes⟩
    · exact h

/-- A call for another tenant changes none of the four. -/
theorem sameFor_perform_of_ne {tenant : TenantId} (t : Admission) {call : Call} (hother : ¬ call.tenant = tenant) :
    SameFor tenant (t.perform call).2 t := by
  have hne : ∀ u, call.tenant = u → ¬ tenant = u := fun u hu heq => hother (hu.trans heq.symm)
  cases call with
  | setQuota u q =>
    refine ⟨?_, rfl, rfl, rfl⟩
    simp [perform, setQuota, quotaFor, hne u rfl]
  | admission u d n b =>
    rcases t.admitRequest_cases u d n b with ⟨_, e, heq⟩ | ⟨_, heq⟩
    · rw [perform, heq]
      exact ⟨rfl, rfl, rfl, rfl⟩
    · rw [perform, heq]
      exact ⟨rfl, rfl, by simp [hne u rfl], by simp [hne u rfl]⟩
  | accept u =>
    have hquota := quotaFor_congr (t.quotas_acceptForExecution u) tenant
    rcases t.acceptForExecution_cases u with ⟨_, e, heq⟩ | ⟨_, _, hconcurrent, hqueued, hbytes⟩
    · rw [perform, heq]
      exact ⟨rfl, rfl, rfl, rfl⟩
    · exact ⟨hquota, by simp [perform, hconcurrent, hne u rfl], by simp [perform, hqueued, hne u rfl],
        by simp [perform, hbytes]⟩
  | release u =>
    have hquota := quotaFor_congr (t.quotas_release u) tenant
    obtain ⟨hqueued, hbytes⟩ := queued_release t u
    exact ⟨hquota, by simp [perform, counter_release, hne u rfl], by simp [perform, hqueued], by simp [perform, hbytes]⟩

/-- The results of a tenant's calls in a run. -/
def resultsFor (tenant : TenantId) (t : Admission) (calls : List Call) : List (Outcome Error Unit) :=
  Run.outputs step (fun t call => (t.perform call).1) (fun call => call.tenant = tenant) t calls

theorem sameFor_unwinds (tenant : TenantId) :
    Run.Unwinds step (fun t call => (t.perform call).1) (fun call : Call => call.tenant = tenant)
      (SameFor tenant) where
  others := by
    intro t t' call h hother
    have hframe := sameFor_perform_of_ne t hother
    exact ⟨hframe.quota.trans h.quota, hframe.concurrent.trans h.concurrent, hframe.queued.trans h.queued,
      hframe.bytes.trans h.bytes⟩
  owner := fun h hown => (h.perform hown).2
  result := fun h hown => (h.perform hown).1

/-- **Tenants do not see each other**: two runs in which a tenant makes the same calls return the same to it,
whatever calls of other tenants are in between. -/
theorem results_depend_on_own_calls (tenant : TenantId) (t : Admission) (calls calls' : List Call)
    (hsame : (calls.filter fun call => call.tenant = tenant) = calls'.filter fun call => call.tenant = tenant) :
    resultsFor tenant t calls = resultsFor tenant t calls' :=
  (sameFor_unwinds tenant).outputs_eq ⟨rfl, rfl, rfl, rfl⟩ hsame

/-- A tenant that is refused its second execution is refused it with and without another tenant's calls. -/
theorem results_depend_on_own_calls_refused :
    let acme : TenantId := ⟨str "acme", by decide⟩
    let other : TenantId := ⟨str "mallory", by decide⟩
    let own : List Call := [.setQuota acme ⟨1, 1, 1, 1⟩, .accept acme, .accept acme]
    let mixed : List Call := [.accept other, .setQuota acme ⟨1, 1, 1, 1⟩, .setQuota other ⟨0, 0, 0, 0⟩, .accept acme,
      .release other, .accept acme]
    resultsFor acme make own = [.ok (), .ok (),
        .error (Error.make .rateOrQuotaExceeded .quotaError (str "max concurrent reached") true)] ∧
      resultsFor acme make mixed = resultsFor acme make own := by
  intro acme other own mixed
  exact ⟨by decide +kernel, results_depend_on_own_calls acme make mixed own rfl⟩

end Admission
end MirageLambda
