import MirageLambda.Common.JsonText
import MirageLambda.Control.Aliases
import MirageLambda.Control.Authorization
import MirageLambda.Control.Digests
import MirageLambda.Control.Integrity
import MirageLambda.Control.Refusals

/-!
# Deploying, moving an alias, fetching

What a whole run of requests leaves of two of them. An alias is a register: it holds what the last well-formed PUT
addressed to it wrote, whatever else the server was asked to do, also where writing the checkpoint failed. A record of
`revisions` never changes. So a bundle whose deploy was answered 201 is what the worker pool fetches through any alias
that was moved to its digest and not moved again.
-/

namespace MirageLambda
open OCaml

/-- The revision that the body of a PUT names. -/
def moveTarget (Y : Yojson) (body : Str) : Option RevisionId :=
  match Y.fromString body with
  | .ok json =>
    match Digest.ofString (revisionMember json) with
    | .ok d => some d
    | _ => none
  | .error _ => none

/-- The revision that a request writes under one key of the table of aliases. -/
def writesTo (Y : Yojson) (config : Config) (k : TenantId × FunctionName × Alias) (r : HttpRequest × Env) :
    Option RevisionId :=
  match callOf config r.1 with
  | some (.moveAlias t f a) => if (t, f, a) = k then moveTarget Y r.1.body else none
  | _ => none

/-! ## One request -/

section
variable {Y : Yojson} {env : Env} {request : HttpRequest} {s : ServerState}

theorem aliases_handleDeploy (t : TenantId) (f : FunctionName) (body : Str) :
    (handleDeploy Y env t f body s).2.registry.aliases = s.registry.aliases := by
  have hpure : ∀ r : Response, Prog.Maintains (fun s' : ServerState => s'.registry.aliases = s.registry.aliases)
      (pure r : Handler Response) := Prog.maintains_pure _
  refine (?_ : Prog.Maintains (fun s' : ServerState => s'.registry.aliases = s.registry.aliases)
    (handleDeploy Y env t f body)) s rfl
  refine maintains_onResult (fun _ => hpure _) fun bundle _ => maintains_onResult (fun _ => hpure _) fun d _ => ?_
  refine Prog.Maintains.bind (fun s' hs' => hs') fun put => ?_
  refine maintains_onResult (fun _ => hpure _) fun _ _ => ?_
  refine Prog.Maintains.bind (fun s' hs' => ?_) fun published => ?_
  · rcases s'.registry.publishRevision_cases Y s'.fs t f
      ⟨d, bundle.manifestJson.toString, bundle.manifest.runtime, env.createdAt⟩ with ⟨e, heq⟩ | ⟨-, heq⟩
    · simp only [publishRevision, heq]
      exact hs'
    · simp only [publishRevision, heq]
      exact hs'
  · exact maintains_onResult (fun _ => hpure _) fun _ _ => hpure _

/-- A PUT writes its key before the checkpoint is written. -/
theorem aliases_handleMoveAlias (t : TenantId) (f : FunctionName) (a : Alias) (body : Str) :
    (handleMoveAlias Y t f a body s).2.registry.aliases =
      match moveTarget Y body with
      | some d => s.registry.aliases.replace (t, f, a) d
      | none => s.registry.aliases := by
  unfold handleMoveAlias moveTarget
  cases Y.fromString body with
  | error m => rfl
  | ok json =>
    simp only []
    cases Digest.ofString (revisionMember json) with
    | error e => rfl
    | raised x => rfl
    | ok d =>
      have hmove : moveAlias Y t f a d s = (.ok (s.registry.moveAlias Y s.fs t f a d none).1,
          { s with registry := (s.registry.moveAlias Y s.fs t f a d none).2.1
                   fs := (s.registry.moveAlias Y s.fs t f a d none).2.2 }) := rfl
      change ((moveAlias Y t f a d >>= fun moved =>
        onResult moved (fun e => pure (errorResponse Y 409 "CONFLICT" e.toString)) fun _ =>
          pure { status := 200, body := [123, 125] }) s).2.registry.aliases = s.registry.aliases.replace (t, f, a) d
      rw [Prog.bind_of_ok hmove]
      obtain ⟨hfails, -⟩ | ⟨-, heq⟩ := s.registry.moveAlias_cases Y s.fs t f a d none
      · exact absurd hfails (by simp [Registry.preconditionFails])
      · rw [heq]
        exact maintains_onResult (I := fun s' : ServerState => s'.registry.aliases = s.registry.aliases.replace (t, f, a) d)
          (fun _ => Prog.maintains_pure _ _) (fun _ _ => Prog.maintains_pure _ _) _ rfl

theorem registry_handleInvoke (t : TenantId) (f : FunctionName) (q : Str) (async : Bool) (body : Str) :
    (handleInvoke Y env t f q async body s).2.registry = s.registry :=
  maintains_handleInvoke_frame (I := fun s' : ServerState => s'.registry = s.registry) (fun _ _ _ _ _ hs => hs)
    t f q async body s rfl

/-- **What a request does to an alias.** -/
theorem findOpt_aliases_callback (Y : Yojson) (env : Env) (request : HttpRequest) (s : ServerState)
    (k : TenantId × FunctionName × Alias) :
    (callback Y env request s).2.registry.aliases.findOpt k =
      (writesTo Y s.config k (request, env)).or (s.registry.aliases.findOpt k) := by
  unfold writesTo
  cases hcall : callOf s.config request with
  | none =>
    obtain ⟨response, heq⟩ := callback_of_no_call Y env hcall
    rw [heq s rfl]
    rfl
  | some call =>
    rw [callback_of_call hcall]
    cases call with
    | deploy t f =>
      rw [Call.handle, aliases_handleDeploy]
      rfl
    | invoke t f q async =>
      rw [Call.handle, registry_handleInvoke]
      rfl
    | moveAlias t f a =>
      rw [Call.handle, aliases_handleMoveAlias]
      cases moveTarget Y request.body with
      | none => simp
      | some d =>
        simp only [Hashtbl.findOpt_replace]
        by_cases hk : (t, f, a) = k
        · rw [if_pos hk, if_pos hk.symm]
          rfl
        · rw [if_neg hk, if_neg (Ne.symm hk)]
          rfl

end

/-! ## Aliases over a run -/

theorem findOpt_aliases_handleAll (Y : Yojson) (s : ServerState) (requests : List (HttpRequest × Env))
    (k : TenantId × FunctionName × Alias) :
    (handleAll Y s requests).registry.aliases.findOpt k =
      ((served Y s requests).filterMap (writesTo Y s.config k)).getLast?.or (s.registry.aliases.findOpt k) := by
  refine Run.register (I := fun s' : ServerState => s'.config = s.config)
    (v := fun s' => s'.registry.aliases.findOpt k) (fun s' r hs' => ?_) (fun s' r hs' => ?_) rfl (served Y s requests)
  · exact (config_callback Y r.2 r.1 s').trans hs'
  · rw [after, findOpt_aliases_callback, hs']

theorem resolve_iff_findOpt {registry : Registry} {t : TenantId} {f : FunctionName} {a : Alias} {q : Qualifier}
    (hq : q.toStr = a.toStr) {d : RevisionId} :
    registry.resolve t f q = .ok d ↔ registry.aliases.findOpt (t, f, a) = some d := by
  rw [Registry.resolve_eq_ok]
  constructor
  · rintro ⟨a', ha', hfind⟩
    obtain rfl : a' = a := Checked.ext (ha'.trans hq)
    exact hfind
  · intro hfind
    exact ⟨a, hq.symm, hfind⟩

/-- **An alias is a register.** After any run it holds the revision of the last request that wrote it, and `resolve`
answers with that revision. -/
theorem alias_is_last_write (Y : Yojson) (s : ServerState) (requests : List (HttpRequest × Env)) (t : TenantId)
    (f : FunctionName) (a : Alias) :
    let last := ((served Y s requests).filterMap (writesTo Y s.config (t, f, a))).getLast?
    (handleAll Y s requests).registry.aliases.findOpt (t, f, a) = last.or (s.registry.aliases.findOpt (t, f, a)) ∧
      ∀ (q : Qualifier) d, q.toStr = a.toStr →
        ((handleAll Y s requests).registry.resolve t f q = .ok d ↔
          last.or (s.registry.aliases.findOpt (t, f, a)) = some d) := by
  intro last
  have hregister := findOpt_aliases_handleAll Y s requests (t, f, a)
  refine ⟨hregister, fun q d hq => ?_⟩
  rw [← hregister]
  exact resolve_iff_findOpt hq

/-! ## Records over a run -/

section
variable {Y : Yojson}

/-- A record is never changed and never taken out. -/
theorem maintains_revision (env : Env) (request : HttpRequest) (k : TenantId × FunctionName × Digest)
    (rev : Registry.Revision) :
    Prog.Maintains (fun s : ServerState => s.registry.revisions.findOpt k = some rev) (callback Y env request) := by
  have hpure : ∀ r : Response, Prog.Maintains (fun s : ServerState => s.registry.revisions.findOpt k = some rev)
      (pure r : Handler Response) := Prog.maintains_pure _
  refine maintains_callback (fun t f => ?_) (fun t f a => ?_) fun t f q async => ?_
  · refine maintains_onResult (fun _ => hpure _) fun bundle _ => maintains_onResult (fun _ => hpure _) fun d _ => ?_
    refine Prog.Maintains.bind (fun s hs => hs) fun put => ?_
    refine maintains_onResult (fun _ => hpure _) fun _ _ => ?_
    refine Prog.Maintains.bind (fun s hs => ?_) fun published => ?_
    · exact Registry.findOpt_revisions_step (s := (s.registry, s.fs)) hs (.publish t f _)
    · exact maintains_onResult (fun _ => hpure _) fun _ _ => hpure _
  · unfold handleMoveAlias
    split
    · exact Prog.maintains_lift _ _
    · refine maintains_onResult (fun _ => hpure _) fun d _ => ?_
      refine Prog.Maintains.bind (fun s hs => ?_) fun moved => ?_
      · exact Registry.findOpt_revisions_step (s := (s.registry, s.fs)) hs (.move t f a d none)
      · exact maintains_onResult (fun _ => hpure _) fun _ _ => hpure _
  · exact maintains_handleInvoke_frame (fun _ _ _ _ _ hs => hs) t f q async request.body

/-- A deploy that is answered 201 has put a record under the digest of the body. -/
theorem handleDeploy_created {env : Env} {t : TenantId} {f : FunctionName} {body : Str} {s : ServerState}
    (h : Answers 201 (handleDeploy Y env t f body s)) :
    ∃ v, Bundle.parse Y body = .ok v ∧
      (handleDeploy Y env t f body s).2.registry.revisions.findOpt (t, f, digestOf body) =
        some ⟨digestOf body, v.manifestJson.toString, v.manifest.runtime, env.createdAt⟩ := by
  obtain ⟨response, hok, hstatus⟩ := h
  cases hparse : Bundle.parse Y body with
  | raised x =>
    simp only [handleDeploy, hparse, onResult, Prog.lift_apply] at hok
    cases hok
  | error e =>
    simp only [handleDeploy, hparse, onResult] at hok
    cases hok
    cases hstatus
  | ok v =>
    refine ⟨v, rfl, ?_⟩
    have hput' : putArtifact (digestOf body) body s =
        (.ok (s.artifactStore.putIfAbsent s.fs (digestOf body) body).1,
          { s with fs := (s.artifactStore.putIfAbsent s.fs (digestOf body) body).2 }) := rfl
    cases hput : (s.artifactStore.putIfAbsent s.fs (digestOf body) body).1 with
    | raised x =>
      rw [hput] at hput'
      simp only [handleDeploy, hparse, onResult, ofString_toHex_hash] at hok
      rw [Prog.bind_of_ok hput'] at hok
      cases hok
    | error e =>
      rw [hput] at hput'
      simp only [handleDeploy, hparse, onResult, ofString_toHex_hash] at hok
      rw [Prog.bind_of_ok hput'] at hok
      cases hok
      cases hstatus
    | ok r =>
      rw [handleDeploy_eq env hparse hput] at hok ⊢
      obtain ⟨e, heq⟩ | ⟨-, heq⟩ := s.registry.publishRevision_cases Y
        (s.artifactStore.putIfAbsent s.fs (digestOf body) body).2 t f
        ⟨digestOf body, v.manifestJson.toString, v.manifest.runtime, env.createdAt⟩
      · rw [heq] at hok
        cases hok
        cases hstatus
      · rw [heq]
        simp

/-- A request that is answered leaves the process alive. -/
theorem aborts_of_answers {s : ServerState} {r : HttpRequest × Env} {status : Nat}
    (h : Answers status (callback Y r.2 r.1 s)) : aborts Y s r = false := by
  obtain ⟨response, hok, -⟩ := h
  rw [aborts_eq_false, answerTo, hok]
  exact fun h => by cases h

/-- What is left of a deploy that was answered 201, after any further requests. -/
theorem lasts_of_created {s₁ : ServerState} (hs₁ : s₁.Integral Y) {request : HttpRequest} {env : Env} {t : TenantId}
    {f : FunctionName} (hcall : callOf s₁.config request = some (.deploy t f))
    (hcreated : Answers 201 (callback Y env request s₁)) (rest : List (HttpRequest × Env)) :
    (handleAll Y s₁ ((request, env) :: rest)).Integral Y ∧ ∃ v, Bundle.parse Y request.body = .ok v ∧
      (handleAll Y s₁ ((request, env) :: rest)).registry.revisions.findOpt (t, f, digestOf request.body) =
        some ⟨digestOf request.body, v.manifestJson.toString, v.manifest.runtime, env.createdAt⟩ := by
  refine ⟨handleAll_induction (maintains_callback_integral Y) hs₁ _, ?_⟩
  have hstep : callback Y env request s₁ = handleDeploy Y env t f request.body s₁ := callback_of_call hcall
  rw [handleAll_cons (aborts_of_answers (r := (request, env)) hcreated)]
  rw [hstep] at hcreated
  obtain ⟨v, hparse, hrecord⟩ := handleDeploy_created hcreated
  refine ⟨v, hparse, ?_⟩
  exact handleAll_induction (fun env' request' => maintains_revision (Y := Y) env' request' (t, f, digestOf request.body)
    ⟨digestOf request.body, v.manifestJson.toString, v.manifest.runtime, env.createdAt⟩)
    (s := after Y s₁ (request, env)) (by rw [after, hstep]; exact hrecord) rest

end

/-- **A deploy that is answered 201 lasts.** After any further requests its record is as it was written, and the store
has an object with the same hash under its digest. -/
theorem created_deploy_lasts (Y : Yojson) (config : Config) (fs : FileSystem) (s₀ : ServerState)
    (hempty : fs.EmptyBelow config.artifactRoot)
    (hsep : ∀ d, ArtifactStore.pathFor ⟨config.artifactRoot⟩ d ≠ config.checkpointPath)
    (hs₀ : makeState config fs = .ok s₀) (before rest : List (HttpRequest × Env)) (request : HttpRequest) (env : Env)
    (t : TenantId) (f : FunctionName) (hcall : callOf s₀.config request = some (.deploy t f))
    (hcreated : Answers 201 (callback Y env request (handleAll Y s₀ before))) :
    let s := handleAll Y (handleAll Y s₀ before) ((request, env) :: rest)
    ∃ v b, Bundle.parse Y request.body = .ok v ∧
      s.registry.revisions.findOpt (t, f, digestOf request.body) =
        some ⟨digestOf request.body, v.manifestJson.toString, v.manifest.runtime, env.createdAt⟩ ∧
      s.artifactStore.get s.fs (digestOf request.body) = .ok b ∧ Sha256.hash b = Sha256.hash request.body ∧
      ∃ w, Bundle.parse Y b = .ok w := by
  intro s
  have hs₁ : (handleAll Y s₀ before).Integral Y :=
    handleAll_induction (maintains_callback_integral Y) (integral_makeState Y hempty hsep hs₀) before
  have hcall' : callOf (handleAll Y s₀ before).config request = some (.deploy t f) := by
    rw [config_handleAll]
    exact hcall
  obtain ⟨hs, v, hparse, hrecord⟩ := lasts_of_created hs₁ hcall' hcreated rest
  obtain ⟨b, hget, hdigest, hw⟩ := Integrity.get_eq_ok hs (Hashtbl.mem_bindings_of_findOpt hrecord)
  exact ⟨v, b, hparse, hrecord, hget, digestOf_eq_iff.1 hdigest, hw⟩

open MirageLambda.Bundle (sampleTenant sampleFunction sampleBundle sampleYojson sampleManifestJson)

/-- `{"revision": …}` with the digest of the sample. -/
def promotingBody : Str := JsonText.print (.assoc [(str "revision", .string (digestOf sampleBundle).toStr)])

/-- The reader of the sample bundle, which also reads `promotingBody`. -/
def promotingYojson : Yojson :=
  { sampleYojson with
    fromString := fun t =>
      if t = promotingBody then .ok (.assoc [(str "revision", .string (digestOf sampleBundle).toStr)])
      else sampleYojson.fromString t }

theorem parse_sampleBundle_promotingYojson : ∃ v, Bundle.parse promotingYojson sampleBundle = .ok v := by
  have hother : ∀ t : Str, t.take 3 ≠ [123, chr '"', chr 'r'] →
      promotingYojson.fromString t = sampleYojson.fromString t := by
    intro t ht
    refine if_neg ?_
    rintro rfl
    exact ht (by decide +kernel)
  obtain ⟨hheader, hmanifest⟩ := Bundle.sample_readsBack
  have hheader' : Bundle.ReadsBack promotingYojson (.object []) := by
    intro hfloat
    rw [hother _ (by decide +kernel)]
    exact hheader hfloat
  have hmanifest' : Bundle.ReadsBack promotingYojson sampleManifestJson := by
    intro hfloat
    rw [hother _ (by decide +kernel)]
    exact hmanifest hfloat
  exact ⟨_, Bundle.parse_eq_ok.2 ⟨_, _, Bundle.parsed_sampleBundle_of_readsBack hheader' hmanifest'⟩⟩

/-- The checkpoint in the root directory. -/
def rootConfig : Config := { defaultConfig [] with artifactRoot := str "/objects", checkpointPath := str "/c" }

/-- A machine with an empty checkpoint file. -/
def rootFiles : FileSystem := (⟨fun _ => none⟩ : FileSystem).set (str "/c") (some (.file []))

def rootState : ServerState :=
  { sampleState with
    config := rootConfig
    artifactStore := ⟨str "/objects"⟩
    registry := Registry.make (some (str "/c"))
    fs := (ArtifactStore.make rootFiles (str "/objects")).2 }

theorem makeState_root : makeState rootConfig rootFiles = .ok rootState := by
  have hmade : (ArtifactStore.make rootFiles rootConfig.artifactRoot).1 = .ok ⟨str "/objects"⟩ := by decide +kernel
  unfold makeState
  simp only []
  rw [hmade]
  rfl

theorem emptyBelow_rootFiles : rootFiles.EmptyBelow rootConfig.artifactRoot := by
  intro name _
  have hne : concat (str "/objects") name ≠ str "/c" := by
    intro h
    have htake := congrArg (List.take 2) h
    rw [concat_eq_append, List.take_append_of_le_length (by decide +kernel)] at htake
    exact absurd htake (by decide +kernel)
  exact (FileSystem.node_set _ _ _ _).trans (if_neg hne)

theorem pathFor_ne_rootCheckpoint (d : Digest) :
    ArtifactStore.pathFor ⟨rootConfig.artifactRoot⟩ d ≠ rootConfig.checkpointPath := by
  intro h
  have hlen := ArtifactStore.length_pathFor ⟨rootConfig.artifactRoot⟩ d
  rw [h, show rootConfig.checkpointPath.length = 2 from rfl] at hlen
  omega

/-- The tables are saved where there is a checkpoint file. -/
theorem checkpointSave_of_file (Y : Yojson) {registry : Registry} {fs : FileSystem} {path old : Str}
    (hpath : registry.checkpointPath = some path) (hfile : fs.node path = some (.file old))
    (hparent : fs.isDir (dirname path) = true) :
    registry.checkpointSave Y fs = (.ok (), fs.set path (some (.file (Y.prettyToString registry.checkpointJson)))) := by
  simp only [Registry.checkpointSave, hpath]
  exact FileSystem.writeFile_of_file _ hfile hparent

/-- The checkpoint lies in the root directory, which is there. -/
theorem isDir_rootCheckpoint (fs : FileSystem) : fs.isDir (dirname (str "/c")) = true := by
  rw [show dirname (str "/c") = str "/" by decide +kernel]
  rfl

/-- The deploy is answered 201, and leaves a file at the checkpoint. -/
theorem deploy_rootState : Answers 201 (callback promotingYojson sampleEnv sampleDeploy rootState) ∧
    (after promotingYojson rootState (sampleDeploy, sampleEnv)).registry.checkpointPath = some (str "/c") ∧
    ∃ old, (after promotingYojson rootState (sampleDeploy, sampleEnv)).fs.node (str "/c") = some (.file old) := by
  obtain ⟨v, hparse⟩ := parse_sampleBundle_promotingYojson
  have hempty : rootState.fs.EmptyBelow rootState.artifactStore.root := by
    intro name hne
    refine ArtifactStore.node_make_below emptyBelow_rootFiles hne ?_
    rw [concat_eq_append, List.length_append]
    exact le_trans (by decide +kernel) (Nat.le_add_right _ _)
  have hput := ArtifactStore.putIfAbsent_created rootState.artifactStore rootState.fs sampleBundle (by decide)
    (by decide +kernel) (by decide +kernel) hempty
  have hfile : (rootState.artifactStore.putIfAbsent rootState.fs (digestOf sampleBundle) sampleBundle).2.node
      (str "/c") = some (.file []) := by
    refine rootState.artifactStore.node_putIfAbsent_of_some _ _ (by decide +kernel) ?_
    exact (pathFor_ne_rootCheckpoint _).symm
  have hcall : callOf rootState.config sampleDeploy = some (.deploy sampleTenant sampleFunction) := by decide +kernel
  have hstep : callback promotingYojson sampleEnv sampleDeploy rootState =
      handleDeploy promotingYojson sampleEnv sampleTenant sampleFunction sampleBundle rootState := by
    rw [callback_of_call hcall]
    rfl
  obtain ⟨e, heq⟩ | ⟨-, heq⟩ := rootState.registry.publishRevision_cases promotingYojson
    (rootState.artifactStore.putIfAbsent rootState.fs (digestOf sampleBundle) sampleBundle).2 sampleTenant sampleFunction
    ⟨digestOf sampleBundle, v.manifestJson.toString, v.manifest.runtime, sampleEnv.createdAt⟩
  · -- the table is empty: nothing is published twice
    have hnew : rootState.registry.revisions.mem (Registry.key sampleTenant sampleFunction (digestOf sampleBundle)) =
        false := rfl
    unfold Registry.publishRevision at heq
    simp only [hnew, Bool.false_eq_true, if_false, Prod.mk.injEq] at heq
    have hlen := congrArg (fun t : Registry => t.revisions.length) heq.2.1
    cases hlen
  · have hsave := fun (registry : Registry) (hpath : registry.checkpointPath = some (str "/c")) =>
      checkpointSave_of_file promotingYojson hpath hfile (isDir_rootCheckpoint _)
    simp only [] at heq
    rw [hsave _ rfl] at heq
    rw [after, hstep, handleDeploy_eq sampleEnv hparse hput, heq]
    refine ⟨⟨_, rfl, rfl⟩, rfl, ?_⟩
    rw [FileSystem.node_set, if_pos rfl]
    exact ⟨_, rfl⟩

theorem created_deploy_lasts_sample :
    ∃ v b, Bundle.parse promotingYojson sampleBundle = .ok v ∧
      rootState.registry.revisions.findOpt (sampleTenant, sampleFunction, digestOf sampleBundle) = none ∧
      (handleAll promotingYojson rootState [(sampleDeploy, sampleEnv)]).artifactStore.get
        (handleAll promotingYojson rootState [(sampleDeploy, sampleEnv)]).fs (digestOf sampleBundle) = .ok b ∧
      Sha256.hash b = Sha256.hash sampleBundle := by
  obtain ⟨v, b, hparse, -, hget, hhash, -⟩ := created_deploy_lasts promotingYojson rootConfig rootFiles rootState
    emptyBelow_rootFiles pathFor_ne_rootCheckpoint makeState_root [] [] sampleDeploy sampleEnv sampleTenant
    sampleFunction (by decide +kernel) deploy_rootState.1
  exact ⟨v, b, hparse, rfl, hget, hhash⟩

end MirageLambda
