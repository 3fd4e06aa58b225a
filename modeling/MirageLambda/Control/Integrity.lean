import MirageLambda.Common.BundleRoundtrip
import MirageLambda.Control.Server

/-!
# Every published revision has its bundle in the store

`revisions` and the artifact store are updated by one handler, `handle_deploy`, the store first. The
invariant over both: what is at the path of an object is a bundle that hashes to the object's digest and
parses, and every record of `revisions` is under its own digest, with something at that object's path.

A put that finds the object already there does not look at it. That is sound only because the object is
one that an earlier deploy checked, which is what `objects` says of every path.

The checkpoint is the only other file the server writes; `separate` keeps it away from the objects.
-/

namespace MirageLambda
open OCaml

structure Integrity (Y : Yojson) (store : ArtifactStore) (reg : Registry) (fs : FileSystem) : Prop where
  separate : ∀ d, reg.checkpointPath ≠ some (store.pathFor d)
  objects : ∀ d, fs.node (store.pathFor d) = none ∨
    ∃ b, fs.node (store.pathFor d) = some (.file b) ∧ digestOf b = d ∧ ∃ v, Bundle.parse Y b = .ok v
  revisions : ∀ t f d rev, ((t, f, d), rev) ∈ reg.revisions.bindings →
    rev.digest = d ∧ fs.node (store.pathFor d) ≠ none

namespace Integrity

variable {Y : Yojson} {store : ArtifactStore} {reg : Registry} {fs : FileSystem}

/-- What the invariant gives to a reader of a published revision. -/
theorem get_eq_ok (h : Integrity Y store reg fs) {t : TenantId} {f : FunctionName} {d : Digest}
    {rev : Registry.Revision} (hrev : ((t, f, d), rev) ∈ reg.revisions.bindings) :
    ∃ b, store.get fs d = .ok b ∧ digestOf b = d ∧ ∃ v, Bundle.parse Y b = .ok v := by
  obtain ⟨_, hstored⟩ := h.revisions t f d rev hrev
  obtain hnone | ⟨b, hb, hdigest, hparse⟩ := h.objects d
  · exact absurd hnone hstored
  · exact ⟨b, ArtifactStore.get_eq_ok.2 ⟨hb, hdigest⟩, hdigest, hparse⟩

/-- Only what stands at the paths of objects matters. -/
theorem congr_fs {fs' : FileSystem} (h : Integrity Y store reg fs)
    (hframe : ∀ d, fs'.node (store.pathFor d) = fs.node (store.pathFor d)) : Integrity Y store reg fs' where
  separate := h.separate
  objects d := by
    rw [hframe]
    exact h.objects d
  revisions t f d rev hrev := by
    rw [hframe]
    exact h.revisions t f d rev hrev

theorem checkpointSave (h : Integrity Y store reg fs) : Integrity Y store reg (reg.checkpointSave Y fs).2 := by
  unfold Registry.checkpointSave
  cases hpath : reg.checkpointPath with
  | none => exact h
  | some path =>
    refine h.congr_fs fun d => FileSystem.node_writeFile_of_ne fs _ ?_
    rintro rfl
    exact h.separate d hpath

/-- A put of bytes that parse keeps the invariant, and after a put that succeeds the object is there. -/
theorem putIfAbsent (h : Integrity Y store reg fs) {b : Str} {v : Bundle.Validated}
    (hparse : Bundle.parse Y b = .ok v) :
    Integrity Y store reg (store.putIfAbsent fs (digestOf b) b).2 ∧
      ∀ r, (store.putIfAbsent fs (digestOf b) b).1 = .ok r →
        (store.putIfAbsent fs (digestOf b) b).2.node (store.pathFor (digestOf b)) ≠ none := by
  obtain ⟨hfail, hframe⟩ | ⟨_, hthere, hframe⟩ | ⟨_, _, hnode⟩ := store.putIfAbsent_cases fs (digestOf b) b
  · exact ⟨h.congr_fs hframe, fun r hr => absurd hr (hfail r)⟩
  · exact ⟨h.congr_fs hframe, fun _ _ => by rwa [hframe]⟩
  · refine ⟨⟨h.separate, fun d => ?_, fun t f d rev hrev => ?_⟩, fun _ _ => ?_⟩
    · rw [hnode]
      by_cases hd : d = digestOf b
      · rw [if_pos hd]
        exact Or.inr ⟨b, rfl, hd.symm, v, hparse⟩
      · rw [if_neg hd]
        exact h.objects d
    · obtain ⟨hdigest, hstored⟩ := h.revisions t f d rev hrev
      refine ⟨hdigest, ?_⟩
      rw [hnode]
      by_cases hd : d = digestOf b
      · simp [hd]
      · rwa [if_neg hd]
    · rw [hnode, if_pos rfl]
      exact Option.some_ne_none _

/-- A record whose object is in the store can be published. -/
theorem publishRevision (h : Integrity Y store reg fs) (t : TenantId) (f : FunctionName)
    (rev : Registry.Revision) (hstored : fs.node (store.pathFor rev.digest) ≠ none) :
    Integrity Y store (reg.publishRevision Y fs t f rev).2.1 (reg.publishRevision Y fs t f rev).2.2 := by
  obtain ⟨e, heq⟩ | ⟨_, heq⟩ := reg.publishRevision_cases Y fs t f rev
  · rw [heq]
    exact h
  · rw [heq]
    refine checkpointSave ⟨h.separate, h.objects, fun t' f' d rev' hrev => ?_⟩
    obtain hnew | hold := List.mem_cons.1 hrev
    · cases hnew
      exact ⟨rfl, hstored⟩
    · exact h.revisions t' f' d rev' hold

theorem moveAlias (h : Integrity Y store reg fs) (t : TenantId) (f : FunctionName) (al : Alias)
    (rev : RevisionId) (pre : Option RevisionId) :
    Integrity Y store (reg.moveAlias Y fs t f al rev pre).2.1 (reg.moveAlias Y fs t f al rev pre).2.2 := by
  obtain ⟨_, e, heq⟩ | ⟨_, heq⟩ := reg.moveAlias_cases Y fs t f al rev pre
  · rw [heq]
    exact h
  · rw [heq]
    exact checkpointSave ⟨h.separate, h.objects, h.revisions⟩

end Integrity

/-! ## The handlers -/

/-- The invariant on the state of the server. -/
def ServerState.Integral (Y : Yojson) (s : ServerState) : Prop := Integrity Y s.artifactStore s.registry s.fs

theorem maintains_handleDeploy (Y : Yojson) (env : Env) (t : TenantId) (f : FunctionName) (body : Str) :
    Prog.Maintains (ServerState.Integral Y) (handleDeploy Y env t f body) := by
  have hpure : ∀ r : Response, Prog.Maintains (ServerState.Integral Y) (pure r : Handler Response) :=
    Prog.maintains_pure _
  refine maintains_onResult (fun _ => hpure _) fun bundle hparse => ?_
  simp only [ofString_toHex_hash]
  -- the put has happened whatever its result; the record is published only after it succeeded
  refine Prog.Leads.bind (fun s hs => (Integrity.putIfAbsent hs hparse).1) fun s put s' hs hput => ?_
  obtain ⟨hs', hstored⟩ := Integrity.putIfAbsent hs hparse
  cases hput
  cases hr : (s.artifactStore.putIfAbsent s.fs (digestOf body) body).1 with
  | error e => exact hs'
  | raised x => exact hs'
  | ok r =>
    have hpublished := Integrity.publishRevision hs' t f ⟨digestOf body, bundle.manifestJson.toString,
      bundle.manifest.runtime, env.createdAt⟩ (hstored r hr)
    refine Prog.Leads.bind (P := fun s' => s' = _) ?_ ?_ _ rfl
    · rintro _ rfl
      exact hpublished
    · rintro _ published _ rfl hp
      cases hp
      refine maintains_onResult (fun _ => hpure _) (fun _ _ => hpure _) _ hpublished

/-- The answer to a deploy that got as far as the registry (mirage_lambda_control.ml:91-102). -/
def deployAnswer (Y : Yojson) (f : FunctionName) (v : Bundle.Validated) (body : Str) :
    Outcome Error Unit → Outcome Empty Response
  | .ok () => .ok { status := 201, body := Y.toString (.assoc [
      (str "function", .string f.toStr),
      (str "revision", .string (str "sha256:" ++ Sha256.toHex (Sha256.hash body))),
      (str "runtime", .string v.manifest.runtime),
      (str "bundleBytes", .int body.length)]) }
  | .error e => .ok (errorResponse Y 409 "CONFLICT" e.toString)
  | .raised x => .raised x

/-- What a deploy does once the bundle has parsed and is in the store. -/
theorem handleDeploy_eq {Y : Yojson} (env : Env) {t : TenantId} {f : FunctionName} {body : Str} {s : ServerState}
    {v : Bundle.Validated} {r : ArtifactStore.Put} (hparse : Bundle.parse Y body = .ok v)
    (hput : (s.artifactStore.putIfAbsent s.fs (digestOf body) body).1 = .ok r) :
    let published := s.registry.publishRevision Y (s.artifactStore.putIfAbsent s.fs (digestOf body) body).2 t f
      ⟨digestOf body, v.manifestJson.toString, v.manifest.runtime, env.createdAt⟩
    handleDeploy Y env t f body s =
      (deployAnswer Y f v body published.1, { s with registry := published.2.1, fs := published.2.2 }) := by
  intro published
  have hput' : putArtifact (digestOf body) body s =
      (.ok (.ok r), { s with fs := (s.artifactStore.putIfAbsent s.fs (digestOf body) body).2 }) := by
    rw [← hput]
    rfl
  have hpublish : publishRevision Y t f
      ⟨digestOf body, v.manifestJson.toString, v.manifest.runtime, env.createdAt⟩
      { s with fs := (s.artifactStore.putIfAbsent s.fs (digestOf body) body).2 } =
        (.ok published.1, { s with registry := published.2.1, fs := published.2.2 }) := rfl
  unfold handleDeploy
  rw [hparse]
  simp only [onResult, ofString_toHex_hash]
  rw [Prog.bind_of_ok hput']
  simp only []
  rw [Prog.bind_of_ok hpublish]
  cases published.1 with
  | ok u => rfl
  | error e => rfl
  | raised x => rfl

/-- A deploy that gets as far as the registry records the digest of the body there. -/
theorem handleDeploy_adds {Y : Yojson} (env : Env) {t : TenantId} {f : FunctionName} {body : Str} {s : ServerState}
    {v : Bundle.Validated} {r : ArtifactStore.Put} (hparse : Bundle.parse Y body = .ok v)
    (hput : (s.artifactStore.putIfAbsent s.fs (digestOf body) body).1 = .ok r)
    (hnew : s.registry.revisions.findOpt (t, f, digestOf body) = none) :
    (handleDeploy Y env t f body s).2.registry.revisions =
      s.registry.revisions.add (t, f, digestOf body)
        ⟨digestOf body, v.manifestJson.toString, v.manifest.runtime, env.createdAt⟩ := by
  rw [handleDeploy_eq env hparse hput]
  simp [Registry.publishRevision, Hashtbl.mem, Registry.key, hnew]

/-- Such a deploy is not the end of the process. -/
theorem handleDeploy_lives {Y : Yojson} (env : Env) {t : TenantId} {f : FunctionName} {body : Str} {s : ServerState}
    {v : Bundle.Validated} {r : ArtifactStore.Put} (hparse : Bundle.parse Y body = .ok v)
    (hput : (s.artifactStore.putIfAbsent s.fs (digestOf body) body).1 = .ok r) (hfiles : s.fs.Unlocked) :
    (handleDeploy Y env t f body s).1 ≠ .raised .aborted := by
  rw [handleDeploy_eq env hparse hput]
  intro haborted
  have hraised : (s.registry.publishRevision Y (s.artifactStore.putIfAbsent s.fs (digestOf body) body).2 t f
      ⟨digestOf body, v.manifestJson.toString, v.manifest.runtime, env.createdAt⟩).1 = .raised .aborted := by
    generalize (s.registry.publishRevision Y (s.artifactStore.putIfAbsent s.fs (digestOf body) body).2 t f
      ⟨digestOf body, v.manifestJson.toString, v.manifest.runtime, env.createdAt⟩).1 = published at haborted ⊢
    cases published with
    | ok u => cases haborted
    | error e => cases haborted
    | raised x =>
      cases haborted
      rfl
  unfold Registry.publishRevision Registry.checkpointSave at hraised
  simp only [] at hraised
  split at hraised
  · cases hraised
  · split at hraised
    · cases hraised
    · obtain ⟨msg, hmsg⟩ := (s.artifactStore.unlocked_putIfAbsent hfiles _ _).writeFile_raised hraised
      cases hmsg

theorem maintains_handleMoveAlias (Y : Yojson) (t : TenantId) (f : FunctionName) (al : Alias) (body : Str) :
    Prog.Maintains (ServerState.Integral Y) (handleMoveAlias Y t f al body) := by
  have hpure : ∀ r : Response, Prog.Maintains (ServerState.Integral Y) (pure r : Handler Response) :=
    Prog.maintains_pure _
  unfold handleMoveAlias
  split
  · exact Prog.maintains_lift _ _
  · refine maintains_onResult (fun _ => hpure _) fun revId _ => ?_
    refine Prog.Maintains.bind (fun s hs => Integrity.moveAlias hs t f al revId none) fun moved => ?_
    exact maintains_onResult (fun _ => hpure _) fun _ _ => hpure _

/-! ## Runs -/

theorem maintains_callback_integral (Y : Yojson) (env : Env) (request : HttpRequest) :
    Prog.Maintains (ServerState.Integral Y) (callback Y env request) :=
  maintains_callback (fun t f => maintains_handleDeploy Y env t f request.body)
    (fun t f al => maintains_handleMoveAlias Y t f al request.body)
    fun t f q async => maintains_handleInvoke_frame (fun _ _ _ _ _ hs => hs) t f q async request.body

theorem node_make_pathFor {fs : FileSystem} {root : Str} (hempty : fs.EmptyBelow root) (d : Digest) :
    (ArtifactStore.make fs root).2.node (ArtifactStore.pathFor ⟨root⟩ d) = none := by
  have hlen := ArtifactStore.length_pathFor ⟨root⟩ d
  obtain ⟨name, hne, heq⟩ := ArtifactStore.pathFor_eq_concat ⟨root⟩ d
  rw [heq] at hlen ⊢
  exact ArtifactStore.node_make_below hempty hne (le_of_le_of_eq (by omega) hlen.symm)

theorem integral_makeState (Y : Yojson) {config : Config} {fs : FileSystem} {s : ServerState}
    (hempty : fs.EmptyBelow config.artifactRoot)
    (hsep : ∀ d, ArtifactStore.pathFor ⟨config.artifactRoot⟩ d ≠ config.checkpointPath)
    (hs : makeState config fs = .ok s) : s.Integral Y := by
  obtain ⟨store, hstore, hstate⟩ := Outcome.bind_eq_ok.1 hs
  obtain ⟨_, _, hroot⟩ := Outcome.bind_eq_ok.1 hstore
  cases hroot
  cases hstate
  refine ⟨fun d h => ?_, fun d => Or.inl (node_make_pathFor hempty d), fun t f d rev hrev => ?_⟩
  · exact hsep d (Option.some_inj.1 h).symm
  · exact absurd hrev List.not_mem_nil

/-- **Referential integrity of deployments.** -/
theorem revisions_are_loadable (Y : Yojson) (config : Config) (fs : FileSystem) (s₀ : ServerState)
    (hempty : fs.EmptyBelow config.artifactRoot)
    (hsep : ∀ d, ArtifactStore.pathFor ⟨config.artifactRoot⟩ d ≠ config.checkpointPath)
    (hs₀ : makeState config fs = .ok s₀) (requests : List (HttpRequest × Env)) :
    let s := handleAll Y s₀ requests
    ∀ tenant functionName digest rev, ((tenant, functionName, digest), rev) ∈ s.registry.revisions.bindings →
      rev.digest = digest ∧ ∃ b, s.artifactStore.get s.fs digest = .ok b ∧
        Sha256.toHex (Sha256.hash b) = digest.toStr ∧ ∃ v, Bundle.parse Y b = .ok v := by
  intro s t f d rev hrev
  have hs : s.Integral Y :=
    handleAll_induction (maintains_callback_integral Y) (integral_makeState Y hempty hsep hs₀) requests
  obtain ⟨b, hget, hdigest, hparse⟩ := Integrity.get_eq_ok hs hrev
  refine ⟨(hs.revisions t f d rev hrev).1, b, hget, ?_, hparse⟩
  rw [← toStr_digestOf, hdigest]

/-- The configuration the server starts with keeps the checkpoint beside the directory of the objects. -/
theorem pathFor_ne_checkpointPath (cwd : Str) (d : Digest) :
    ArtifactStore.pathFor ⟨(defaultConfig cwd).artifactRoot⟩ d ≠ (defaultConfig cwd).checkpointPath := by
  intro h
  have hlen := ArtifactStore.length_pathFor ⟨(defaultConfig cwd).artifactRoot⟩ d
  have hroot := length_le_intoDir (defaultConfig cwd).artifactRoot
  rw [h] at hlen
  simp only [defaultConfig, concat_eq_append, List.length_append] at hlen hroot
  have hname : (str ".mirage-lambda/registry.json").length = 28 := rfl
  omega

/-! ### One deploy of a bundle with two modules -/

open MirageLambda.Bundle (sampleTenant sampleFunction sampleBundle sampleYojson)

def sampleDeploy : HttpRequest :=
  { meth := .post, path := str "/v1/tenants/acme/functions/hello/versions"
    authorization := some (str "Bearer dev-token"), body := sampleBundle }

/-- The sample is deployed from a fresh state; its object can be read back. -/
theorem revisions_are_loadable_sample :
    makeState (defaultConfig (str "/srv")) ⟨fun _ => none⟩ = .ok sampleState ∧
      ∃ (s : ServerState) (rev : Registry.Revision),
        handleAll sampleYojson sampleState [(sampleDeploy, sampleEnv)] = s ∧
        ((sampleTenant, sampleFunction, digestOf sampleBundle), rev) ∈ s.registry.revisions.bindings ∧
        rev.digest = digestOf sampleBundle ∧ ∃ b, s.artifactStore.get s.fs (digestOf sampleBundle) = .ok b ∧
          Sha256.toHex (Sha256.hash b) = (digestOf sampleBundle).toStr ∧
          ∃ v, Bundle.parse sampleYojson b = .ok v := by
  obtain ⟨v, hparse⟩ := Bundle.parse_sampleBundle
  have hnone : FileSystem.EmptyBelow ⟨fun _ => none⟩ (defaultConfig (str "/srv")).artifactRoot := fun _ _ => rfl
  have hempty : sampleState.fs.EmptyBelow sampleState.artifactStore.root := by
    intro name hne
    refine ArtifactStore.node_make_below hnone hne ?_
    rw [concat_eq_append, List.length_append]
    exact le_trans (by decide +kernel) (Nat.le_add_right _ _)
  have hput := ArtifactStore.putIfAbsent_created sampleState.artifactStore sampleState.fs
    sampleBundle (by decide) (by decide +kernel) (by decide +kernel) hempty
  obtain ⟨rev, hadded⟩ : ∃ rev : Registry.Revision,
      (handleAll sampleYojson sampleState [(sampleDeploy, sampleEnv)]).registry.revisions =
        sampleState.registry.revisions.add (sampleTenant, sampleFunction, digestOf sampleBundle) rev := by
    refine ⟨⟨digestOf sampleBundle, v.manifestJson.toString, v.manifest.runtime, sampleEnv.createdAt⟩, ?_⟩
    have hunlocked : sampleState.fs.Unlocked :=
      ArtifactStore.unlocked_mkAll _ (fun _ _ h => Option.some_ne_none _ h.symm) _
    have hstep : callback sampleYojson sampleEnv sampleDeploy sampleState =
        handleDeploy sampleYojson sampleEnv sampleTenant sampleFunction sampleBundle sampleState :=
      callback_deploy rfl (by decide +kernel) (by decide +kernel) (by decide +kernel)
    have hlives : aborts sampleYojson sampleState (sampleDeploy, sampleEnv) = false := by
      rw [aborts_eq_false, answerTo, hstep]
      exact handleDeploy_lives sampleEnv hparse hput hunlocked
    rw [handleAll_singleton hlives, after, hstep]
    exact handleDeploy_adds sampleEnv hparse hput rfl
  have hloadable := revisions_are_loadable sampleYojson (defaultConfig (str "/srv")) ⟨fun _ => none⟩
    sampleState hnone (pathFor_ne_checkpointPath (str "/srv")) makeState_sample [(sampleDeploy, sampleEnv)]
  simp only [] at hloadable
  generalize handleAll sampleYojson sampleState [(sampleDeploy, sampleEnv)] = s at hadded hloadable ⊢
  have hmem : ((sampleTenant, sampleFunction, digestOf sampleBundle), rev) ∈ s.registry.revisions.bindings := by
    rw [hadded]
    exact List.mem_cons_self
  have hsample := hloadable sampleTenant sampleFunction (digestOf sampleBundle) rev hmem
  exact ⟨makeState_sample, s, rev, rfl, hmem, hsample⟩

end MirageLambda
