import MirageLambda.Control.Deployments
import MirageLambda.Control.Records

/-!
# What one tenant can do to another

Every handler works under the tenant of its route. `TenantView` is all that the server keeps under a tenant: its
records, its aliases, its counts, its quota and what waits for it in the queue. A run of requests for other tenants
leaves a tenant's view as it is. What tenants share is not in it: the objects of the store, the table of results, the
engines.
-/

namespace MirageLambda
open OCaml Qjs

/-- What the server keeps under one tenant. -/
structure TenantView where
  revision : FunctionName → Digest → Option Registry.Revision
  alias_ : FunctionName → Alias → Option RevisionId
  counts : Admission.Counts
  quota : Admission.TenantQuota
  pending : List Scheduler.Pending

def tenantView (s : ServerState) (u : TenantId) : TenantView where
  revision f d := s.registry.revisions.findOpt (u, f, d)
  alias_ f a := s.registry.aliases.findOpt (u, f, a)
  counts := s.admission.countsOf u
  quota := s.admission.quotaFor u
  pending := s.scheduler.queue.filter fun p => p.tenant = u

/-- The request is not for this tenant. -/
def ForOthers (config : Config) (u : TenantId) (r : HttpRequest × Env) : Prop :=
  ∀ call, callOf config r.1 = some call → call.tenant ≠ u

/-! ## One request -/

section
variable {Y : Yojson} {s : ServerState} {u : TenantId}

/-- A deploy adds a record for its own tenant only. -/
theorem revisions_handleDeploy_other (env : Env) {t : TenantId} (ht : t ≠ u) (f : FunctionName) (body : Str)
    (g : FunctionName) (d : Digest) :
    (handleDeploy Y env t f body s).2.registry.revisions.findOpt (u, g, d) = s.registry.revisions.findOpt (u, g, d) := by
  have hpure : ∀ r : Response, Prog.Maintains
      (fun s' : ServerState => s'.registry.revisions.findOpt (u, g, d) = s.registry.revisions.findOpt (u, g, d))
      (pure r : Handler Response) := Prog.maintains_pure _
  refine (?_ : Prog.Maintains
    (fun s' : ServerState => s'.registry.revisions.findOpt (u, g, d) = s.registry.revisions.findOpt (u, g, d))
    (handleDeploy Y env t f body)) s rfl
  refine maintains_onResult (fun _ => hpure _) fun bundle _ => maintains_onResult (fun _ => hpure _) fun d' _ => ?_
  refine Prog.Maintains.bind (fun s' hs' => hs') fun put => ?_
  refine maintains_onResult (fun _ => hpure _) fun _ _ => ?_
  refine Prog.Maintains.bind (fun s' hs' => ?_) fun published => ?_
  · rcases s'.registry.publishRevision_cases Y s'.fs t f
      ⟨d', bundle.manifestJson.toString, bundle.manifest.runtime, env.createdAt⟩ with ⟨e, heq⟩ | ⟨-, heq⟩
    · simp only [publishRevision, heq]
      exact hs'
    · simp only [publishRevision, heq, Hashtbl.findOpt_add]
      rw [if_neg fun h => ht (congrArg Prod.fst h).symm]
      exact hs'
  · exact maintains_onResult (fun _ => hpure _) fun _ _ => hpure _

/-- Moving an alias leaves the records alone. -/
theorem revisions_handleMoveAlias (t : TenantId) (f : FunctionName) (a : Alias) (body : Str) :
    (handleMoveAlias Y t f a body s).2.registry.revisions = s.registry.revisions := by
  have hpure : ∀ r : Response, Prog.Maintains (fun s' : ServerState => s'.registry.revisions = s.registry.revisions)
      (pure r : Handler Response) := Prog.maintains_pure _
  refine (?_ : Prog.Maintains (fun s' : ServerState => s'.registry.revisions = s.registry.revisions)
    (handleMoveAlias Y t f a body)) s rfl
  unfold handleMoveAlias
  split
  · exact Prog.maintains_lift _ _
  · refine maintains_onResult (fun _ => hpure _) fun d _ => ?_
    refine Prog.Maintains.bind (fun s' hs' => ?_) fun moved => ?_
    · rcases s'.registry.moveAlias_cases Y s'.fs t f a d none with ⟨-, e, heq⟩ | ⟨-, heq⟩
      · simp only [moveAlias, heq]
        exact hs'
      · simp only [moveAlias, heq]
        exact hs'
    · exact maintains_onResult (fun _ => hpure _) fun _ _ => hpure _

theorem revisions_after_other {r : HttpRequest × Env} (h : ForOthers s.config u r) (g : FunctionName) (d : Digest) :
    (after Y s r).registry.revisions.findOpt (u, g, d) = s.registry.revisions.findOpt (u, g, d) := by
  unfold after
  cases hcall : callOf s.config r.1 with
  | none =>
    obtain ⟨response, heq⟩ := callback_of_no_call Y r.2 hcall
    rw [heq s rfl]
  | some call =>
    rw [callback_of_call hcall]
    cases call with
    | deploy t f => exact revisions_handleDeploy_other r.2 (h _ hcall) f r.1.body g d
    | moveAlias t f a => rw [Call.handle, revisions_handleMoveAlias]
    | invoke t f q async => rw [Call.handle, registry_handleInvoke]

theorem aliases_after_other {r : HttpRequest × Env} (h : ForOthers s.config u r) (g : FunctionName) (a : Alias) :
    (after Y s r).registry.aliases.findOpt (u, g, a) = s.registry.aliases.findOpt (u, g, a) := by
  have hnone : writesTo Y s.config (u, g, a) r = none := by
    unfold writesTo
    split
    · rename_i t f b hcall
      exact if_neg fun hk => h _ hcall (congrArg Prod.fst hk)
    · rfl
  rw [after, findOpt_aliases_callback, hnone, Option.none_or]

/-- The invocation of a request is for the tenant of its route. -/
theorem tenant_of_invocation {config : Config} {r : HttpRequest × Env} {i : InvokeRequest}
    (hi : invocationOf config r = some i) : ∃ call, callOf config r.1 = some call ∧ call.tenant = i.tenant := by
  unfold invocationOf at hi
  split at hi
  · rename_i hcall
    cases hi
    exact ⟨_, hcall, rfl⟩
  · cases hi

theorem tenant_of_pending {i : InvokeRequest} {p : Scheduler.Pending} (hp : InvokeRequest.pendingOf s i = some p) :
    p.tenant = i.tenant := by
  unfold InvokeRequest.pendingOf at hp
  split at hp
  · split at hp
    · cases hp
      rfl
    · cases hp
  · cases hp

/-- **A request for another tenant leaves the view alone.** -/
theorem tenantView_after_other (hs : Sound s) {r : HttpRequest × Env}
    (h : ForOthers s.config u r) : tenantView (after Y s r) u = tenantView s u := by
  have hrest : (after Y s r).admission.countsOf u = s.admission.countsOf u ∧
      (after Y s r).admission.quotaFor u = s.admission.quotaFor u ∧
      ((after Y s r).scheduler.queue.filter fun p => p.tenant = u) = s.scheduler.queue.filter fun p => p.tenant = u := by
    obtain ⟨i, hi, heq⟩ | ⟨-, hadm, -, hqueue, -⟩ := after_cases Y s r
    · obtain ⟨call, hcall, htenant⟩ := tenant_of_invocation hi
      have hu : ¬ u = i.tenant := fun hu => h call hcall (htenant.trans hu.symm)
      obtain ⟨change, hchange, -⟩ := i.countsOf_handle Y hs.wf.handles hs.nonneg
      rw [after, heq, (i.accounted_handle Y s).queue, List.filter_append]
      refine ⟨?_, ?_, ?_⟩
      · rw [hchange, if_neg hu]
      · rw [Admission.quotaFor, i.quotas_handle Y s hs.wf.handles]
        rfl
      · cases hp : InvokeRequest.pendingOf s i with
        | none => simp
        | some p =>
          have hother : ¬ p.tenant = u := fun hpu => hu (hpu.symm.trans (tenant_of_pending hp))
          simp [hother]
    · rw [hadm, hqueue]
      exact ⟨rfl, rfl, rfl⟩
  unfold tenantView
  simp only [revisions_after_other h, aliases_after_other h, hrest.1, hrest.2.1, hrest.2.2]

end

/-- **Tenants are isolated.** Whatever is requested for other tenants, from any state that requests can bring a new
server to, the records, the aliases, the counts and the waiting invocations of a tenant stay what they are, and so does
what each of its qualifiers resolves to. -/
theorem tenants_are_isolated (Y : Yojson) (config : Config) (fs : FileSystem) (s₀ : ServerState)
    (hs₀ : makeState config fs = .ok s₀) (before requests : List (HttpRequest × Env)) (u : TenantId)
    (hothers : ∀ r ∈ requests, ForOthers config u r) :
    let s := handleAll Y s₀ before
    tenantView (handleAll Y s requests) u = tenantView s u ∧
      ∀ f q, (handleAll Y s requests).registry.resolve u f q = s.registry.resolve u f q := by
  intro s
  have hconfig : s.config = config := by
    rw [config_handleAll]
    obtain ⟨store, -, hstate⟩ := Outcome.bind_eq_ok.1 hs₀
    cases hstate
    rfl
  have hsame : tenantView (handleAll Y s requests) u = tenantView s u := by
    have hrun := Run.invariant_of_mem (P := ForOthers config u)
      (I := fun s' => (Sound s' ∧ s'.config = config) ∧ tenantView s' u = tenantView s u)
      (fun s' r hs' hr => ⟨⟨hs'.1.1.after r, (config_callback Y r.2 r.1 s').trans hs'.1.2⟩, ?_⟩)
      ⟨⟨Sound.handleAll hs₀ before, hconfig⟩, rfl⟩ (served Y s requests) fun r hr => hothers r (mem_of_mem_served hr)
    · exact hrun.2
    · rw [tenantView_after_other hs'.1.1 (by rw [hs'.1.2]; exact hr)]
      exact hs'.2
  refine ⟨hsame, fun f q => ?_⟩
  obtain ⟨a, ha, hres⟩ := (handleAll Y s requests).registry.resolve_eq u f q
  obtain ⟨a', ha', hres'⟩ := s.registry.resolve_eq u f q
  obtain rfl : a' = a := Checked.ext (ha'.trans ha.symm)
  have hal := congrFun (congrFun (congrArg TenantView.alias_ hsame) f) a'
  simp only [tenantView] at hal
  rw [hres, hres', hal]

open MirageLambda.Bundle (sampleTenant sampleYojson)

/-- The invocation of the sample tenant leaves the view of another alone. -/
theorem tenants_are_isolated_sample :
    tenantView (handleAll sampleYojson sampleState [(samplePost, sampleEnv)]) Registry.intruder =
      tenantView sampleState Registry.intruder := by
  refine (tenants_are_isolated sampleYojson (defaultConfig (str "/srv")) ⟨fun _ => none⟩ sampleState makeState_sample []
    [(samplePost, sampleEnv)] Registry.intruder ?_).1
  intro r hr call hcall
  rw [List.mem_singleton.1 hr] at hcall
  have hsample : callOf (defaultConfig (str "/srv")) samplePost =
      some (.invoke sampleTenant Bundle.sampleFunction (str "live") true) := by
    decide +kernel
  rw [hsample] at hcall
  cases hcall
  decide

end MirageLambda
