import MirageLambda.Common.JsonText
import MirageLambda.Control.InvocationIds
import MirageLambda.Control.Integrity

/-!
# How a revision is named

A revision has one name inside the registry, the 64 hexadecimal digits of its digest, and two grammars on the way
to it. `handle_deploy` answers with `sha256:` in front of the digits, and `handle_move_alias` reads a bare digest, so
what the first returns is refused by the second. A qualifier is a slug of at most 63 bytes, so no digest is one, and
the branch of `resolve` that looks a digest up is never taken.
-/

namespace MirageLambda
open OCaml

/-! ## The answer to a deploy -/

/-- The answer has the member `revision` with this string. -/
def Announces (Y : Yojson) (resp : Response) (r : Str) : Prop :=
  ∃ members, resp.body = Y.toString (.assoc members) ∧ members.lookup (str "revision") = some (.string r)

/-- What `handle_deploy` puts in front of the digest (mirage_lambda_control.ml:98). -/
def announced (body : Str) : Str := str "sha256:" ++ Sha256.toHex (Sha256.hash body)

/-- `announced` is seven bytes too long for `Revision_id.of_string`. -/
theorem ofString_announced (body : Str) :
    Digest.ofString (announced body) = .error ⟨str "digest", str "must be 64 hex chars"⟩ := by
  have hhex := (digestOf body).length_toStr
  rw [toStr_digestOf] at hhex
  have hlen : (announced body).length = 71 := by
    rw [announced, List.length_append, hhex]
    rfl
  apply Checked.ofString_of_error
  simp [digestCheck, hlen]

/-- A deploy that answers 201 announces the digest of its body. -/
theorem handleDeploy_announces {Y : Yojson} {env : Env} {tenant : TenantId} {fn : FunctionName} {body : Str}
    {s s' : ServerState} {resp : Response} (h : handleDeploy Y env tenant fn body s = (.ok resp, s'))
    (hcreated : resp.status = 201) : Announces Y resp (announced body) := by
  -- every other exit of the handler has another status
  have hother : ∀ {status : Nat} {code : String} {message : Str} {s₁ : ServerState}, status ≠ 201 →
      (pure (errorResponse Y status code message) : Handler Response) s₁ ≠ (.ok resp, s') := by
    intro status code message s₁ hne heq
    cases heq
    exact hne hcreated
  unfold handleDeploy at h
  cases hparse : Bundle.parse Y body with
  | error e =>
    rw [hparse] at h
    exact absurd h (hother (by decide))
  | raised x =>
    rw [hparse] at h
    cases h
  | ok bundle =>
    rw [hparse] at h
    simp only [onResult, ofString_toHex_hash] at h
    obtain ⟨put, s₁, -, h⟩ := Prog.bind_eq_ok h
    cases put with
    | error e => exact absurd h (hother (by decide))
    | raised x => cases h
    | ok r =>
      obtain ⟨published, s₂, -, h⟩ := Prog.bind_eq_ok h
      cases published with
      | error e => exact absurd h (hother (by decide))
      | raised x => cases h
      | ok u =>
        cases h
        exact ⟨_, rfl, rfl⟩

/-- What deploy returned can be used: the alias moves to it, and then resolves to the digest of the bundle. -/
def RevisionUsable (Y : Yojson) (tenant : TenantId) (fn : FunctionName) (al : Alias) (body : Str) (resp : Response)
    (s : ServerState) : Prop :=
  ∀ r text, Announces Y resp r → Y.fromString text = .ok (.assoc [(str "revision", .string r)]) →
    ∃ answer s', handleMoveAlias Y tenant fn al text s = (.ok answer, s') ∧ answer.status = 200 ∧
      ∀ q : Qualifier, q.toStr = al.toStr → s'.registry.resolve tenant fn q = .ok (digestOf body)

/-- `handle_move_alias` refuses what a deploy announced, and the alias stays where it is. -/
theorem handleMoveAlias_announced {Y : Yojson} {body text : Str}
    (htext : Y.fromString text = .ok (.assoc [(str "revision", .string (announced body))])) (tenant : TenantId)
    (fn : FunctionName) (al : Alias) (s : ServerState) :
    handleMoveAlias Y tenant fn al text s =
      (.ok (errorResponse Y 400 "INVALID_REQUEST" (str "bad revision")), s) := by
  have hmember : revisionMember (.assoc [(str "revision", .string (announced body))]) = announced body := rfl
  unfold handleMoveAlias
  rw [htext]
  simp only [hmember, ofString_announced]
  rfl

/-- **No revision string that a deploy returns can be used** to move an alias. -/
theorem deployed_revision_unusable (Y : Yojson) (env : Env) (tenant : TenantId) (fn : FunctionName) (al : Alias)
    (body text : Str) (s s' : ServerState) (resp : Response)
    (hdeploy : handleDeploy Y env tenant fn body s = (.ok resp, s')) (hcreated : resp.status = 201)
    (htext : Y.fromString text = .ok (.assoc [(str "revision", .string (announced body))])) :
    Announces Y resp (announced body) ∧
      handleMoveAlias Y tenant fn al text s' =
        (.ok (errorResponse Y 400 "INVALID_REQUEST" (str "bad revision")), s') ∧
      ¬ RevisionUsable Y tenant fn al body resp s' := by
  have hannounces := handleDeploy_announces hdeploy hcreated
  have hrefused := handleMoveAlias_announced htext tenant fn al s'
  refine ⟨hannounces, hrefused, ?_⟩
  intro h
  obtain ⟨answer, s₂, hmove, hok, -⟩ := h _ text hannounces htext
  rw [hrefused] at hmove
  cases hmove
  cases hok

/-! ### A deploy and the alias on it -/

open MirageLambda.Bundle (sampleTenant sampleFunction sampleBundle sampleYojson sampleManifestJson)

/-- `{"revision": …}` with what the deploy of the sample announces. -/
def aliasBody : Str := JsonText.print (.assoc [(str "revision", .string (announced sampleBundle))])

/-- The reader of the sample bundle, which also reads `aliasBody`. -/
def aliasYojson : Yojson :=
  { sampleYojson with
    fromString := fun t =>
      if t = aliasBody then .ok (.assoc [(str "revision", .string (announced sampleBundle))])
      else sampleYojson.fromString t }

theorem fromString_aliasBody :
    aliasYojson.fromString aliasBody = .ok (.assoc [(str "revision", .string (announced sampleBundle))]) := by
  simp only [aliasYojson, if_true]

theorem parse_sampleBundle_aliasYojson : ∃ v, Bundle.parse aliasYojson sampleBundle = .ok v := by
  have hother : ∀ t : Str, t.take 3 ≠ [123, chr '"', chr 'r'] → aliasYojson.fromString t = sampleYojson.fromString t := by
    intro t ht
    refine if_neg ?_
    rintro rfl
    exact ht rfl
  obtain ⟨hheader, hmanifest⟩ := Bundle.sample_readsBack
  have hheader' : Bundle.ReadsBack aliasYojson (.object []) := by
    intro hfloat
    rw [hother _ (by decide +kernel)]
    exact hheader hfloat
  have hmanifest' : Bundle.ReadsBack aliasYojson sampleManifestJson := by
    intro hfloat
    rw [hother _ (by decide +kernel)]
    exact hmanifest hfloat
  exact ⟨_, Bundle.parse_eq_ok.2 ⟨_, _, Bundle.parsed_sampleBundle_of_readsBack hheader' hmanifest'⟩⟩

/-- A server whose checkpoint file is there. -/
def checkpointedState : ServerState :=
  { sampleState with fs := sampleState.fs.set sampleState.config.checkpointPath (some (.file [])) }

theorem put_checkpointedState :
    (checkpointedState.artifactStore.putIfAbsent checkpointedState.fs (digestOf sampleBundle) sampleBundle).1 =
      .ok .created := by
  have hnone : FileSystem.EmptyBelow ⟨fun _ => none⟩ (defaultConfig (str "/srv")).artifactRoot := fun _ _ => rfl
  refine ArtifactStore.putIfAbsent_created _ _ _ (by decide) (by decide +kernel) (by decide +kernel) ?_
  intro name hne
  have hdiff : concat checkpointedState.artifactStore.root name ≠ sampleState.config.checkpointPath := by
    intro heq
    have htake := congrArg (List.take 21) heq
    rw [concat_eq_append, List.take_append_of_le_length (by decide +kernel)] at htake
    exact absurd htake (by decide +kernel)
  have hfs : checkpointedState.fs = sampleState.fs.set sampleState.config.checkpointPath (some (.file [])) := rfl
  rw [hfs, FileSystem.node_set, if_neg hdiff]
  refine ArtifactStore.node_make_below hnone hne ?_
  rw [concat_eq_append, List.length_append]
  exact le_trans (by decide +kernel) (Nat.le_add_right _ _)

/-- A put leaves the checkpoint file and its directory where they are. -/
theorem checkpoint_after_put (d : Digest) (b : Str) :
    (checkpointedState.artifactStore.putIfAbsent checkpointedState.fs d b).2.node
        checkpointedState.config.checkpointPath = some (.file []) ∧
      (checkpointedState.artifactStore.putIfAbsent checkpointedState.fs d b).2.node
        (dirname checkpointedState.config.checkpointPath) = some .dir := by
  have hfile : checkpointedState.fs.node checkpointedState.config.checkpointPath = some (.file []) := by
    rw [checkpointedState, FileSystem.node_set, if_pos rfl]
  have hdir : checkpointedState.fs.node (dirname checkpointedState.config.checkpointPath) = some .dir := by
    decide +kernel
  have hne : dirname checkpointedState.config.checkpointPath ≠ checkpointedState.artifactStore.pathFor d := by
    intro heq
    have hlen := congrArg List.length heq
    rw [ArtifactStore.length_pathFor] at hlen
    exact absurd hlen (by decide +kernel)
  exact ⟨checkpointedState.artifactStore.node_putIfAbsent_of_some d b hfile
      (pathFor_ne_checkpointPath (str "/srv") d).symm,
    checkpointedState.artifactStore.node_putIfAbsent_of_some d b hdir hne⟩

/-- A revision can be published when the checkpoint file is there. -/
theorem publish_checkpointedState (fs : FileSystem) (rev : Registry.Revision)
    (hfile : fs.node checkpointedState.config.checkpointPath = some (.file []))
    (hdir : fs.node (dirname checkpointedState.config.checkpointPath) = some .dir) :
    (checkpointedState.registry.publishRevision aliasYojson fs sampleTenant sampleFunction rev).1 = .ok () := by
  have hpath : checkpointedState.registry.checkpointPath = some checkpointedState.config.checkpointPath := rfl
  have hparent : fs.isDir (dirname checkpointedState.config.checkpointPath) = true := by
    simp [FileSystem.isDir, hdir]
  have hnew : checkpointedState.registry.revisions.mem (Registry.key sampleTenant sampleFunction rev.digest) = false :=
    rfl
  simp only [Registry.publishRevision, hnew, Bool.false_eq_true, if_false, Registry.checkpointSave, hpath]
  rw [FileSystem.writeFile_of_file _ hfile hparent]

theorem deploy_checkpointedState :
    ∃ resp s', handleDeploy aliasYojson sampleEnv sampleTenant sampleFunction sampleBundle checkpointedState =
      (.ok resp, s') ∧ resp.status = 201 := by
  obtain ⟨v, hparse⟩ := parse_sampleBundle_aliasYojson
  obtain ⟨hfile, hdir⟩ := checkpoint_after_put (digestOf sampleBundle) sampleBundle
  rw [handleDeploy_eq sampleEnv hparse put_checkpointedState, publish_checkpointedState _ _ hfile hdir]
  exact ⟨_, _, rfl, rfl⟩

/-- The deploy of the sample answers 201; an alias cannot be moved to what it returned. -/
theorem sample_revision_refused :
    ∃ resp s', handleDeploy aliasYojson sampleEnv sampleTenant sampleFunction sampleBundle checkpointedState =
      (.ok resp, s') ∧ resp.status = 201 ∧
      ¬ RevisionUsable aliasYojson sampleTenant sampleFunction ⟨str "live", by decide⟩ sampleBundle resp s' := by
  obtain ⟨resp, s', hdeploy, hcreated⟩ := deploy_checkpointedState
  refine ⟨resp, s', hdeploy, hcreated, ?_⟩
  intro h
  obtain ⟨answer, s₂, hmove, hok, -⟩ := h _ aliasBody (handleDeploy_announces hdeploy hcreated) fromString_aliasBody
  have hrefused := (handleMoveAlias_announced fromString_aliasBody _ _ _ s').symm.trans hmove
  cases hrefused
  cases hok

theorem deployed_revision_unusable_sample :
    ∃ resp s', handleDeploy aliasYojson sampleEnv sampleTenant sampleFunction sampleBundle checkpointedState =
      (.ok resp, s') ∧
      handleMoveAlias aliasYojson sampleTenant sampleFunction ⟨str "live", by decide⟩ aliasBody s' =
        (.ok (errorResponse aliasYojson 400 "INVALID_REQUEST" (str "bad revision")), s') := by
  obtain ⟨resp, s', hdeploy, hcreated⟩ := deploy_checkpointedState
  exact ⟨resp, s', hdeploy, (deployed_revision_unusable aliasYojson sampleEnv sampleTenant sampleFunction
    ⟨str "live", by decide⟩ sampleBundle aliasBody checkpointedState s' resp hdeploy hcreated
    fromString_aliasBody).2.1⟩

/-! ## Invoking by digest -/

/-- The digest is a qualifier that resolves to itself. -/
def ReachableByDigest (t : Registry) (tenant : TenantId) (fn : FunctionName) (d : Digest) : Prop :=
  ∃ q : Qualifier, Qualifier.ofString d.toStr = .ok q ∧ t.resolve tenant fn q = .ok d

/-- The request ended before `run_one`: the engines are as they were, and it was refused for a quota or an exception
left the handler. -/
def StopsBeforeRunOne (Y : Yojson) (s : ServerState) (ended : Outcome Empty Response × ServerState) : Prop :=
  ended.2.qjs = s.qjs ∧
    ((∃ x, ended.1 = .raised x) ∨ ∃ message, ended.1 = .ok (errorResponse Y 429 "RATE_OR_QUOTA_EXCEEDED" message))

theorem not_reachableByDigest (t : Registry) (tenant : TenantId) (fn : FunctionName) (d : Digest) :
    ¬ ReachableByDigest t tenant fn d := by
  rintro ⟨q, hq, -⟩
  exact digest_not_slug d q (Checked.ofString_eq_ok.1 hq).symm

theorem ofStringExn_digest (d : Digest) : ∃ x, (Qualifier.ofStringExn d.toStr : Outcome Empty Qualifier) = .raised x := by
  cases h : (Qualifier.ofStringExn d.toStr : Outcome Empty Qualifier) with
  | ok q => exact absurd (Checked.ofStringExn_eq_ok.1 h).symm (digest_not_slug d q)
  | error e => exact e.elim
  | raised x => exact ⟨x, rfl⟩

theorem invokeSync_digest (Y : Yojson) (env : Env) (id : InvocationId) (tenant : TenantId) (fn : FunctionName)
    (d : Digest) (body : Str) (deadline : Int64) (s : ServerState) :
    StopsBeforeRunOne Y s (invokeSync Y env id tenant fn d.toStr body deadline s) := by
  obtain ⟨x, hx⟩ := ofStringExn_digest d
  obtain ⟨-, message, hfull⟩ | ⟨-, admission, heq, -⟩ :=
    invokeSync_cases Y env id tenant fn body deadline (s := s) d.toStr
  · rw [hfull]
    exact ⟨rfl, Or.inr ⟨message, rfl⟩⟩
  · rw [heq, invokeAccepted, hx, Prog.lift_raised_bind]
    exact ⟨rfl, Or.inl ⟨x, rfl⟩⟩

theorem handleInvoke_digest (Y : Yojson) (env : Env) (tenant : TenantId) (fn : FunctionName) (d : Digest) (async : Bool)
    (body : Str) (s : ServerState) :
    StopsBeforeRunOne Y s (handleInvoke Y env tenant fn d.toStr async body s) := by
  obtain ⟨x, hx⟩ := ofStringExn_digest d
  obtain ⟨x, -, heq⟩ | ⟨id, -, ⟨-, e, -, heq⟩ | ⟨-, admission, -, heq⟩⟩ :=
    handleInvoke_cases Y env tenant fn body (s := s) d.toStr async
  · rw [heq]
    exact ⟨rfl, Or.inl ⟨x, rfl⟩⟩
  · rw [heq]
    exact ⟨rfl, Or.inr ⟨_, rfl⟩⟩
  · rw [heq]
    cases async with
    | true =>
      simp only [if_true, invokeAsync, hx, Prog.lift_raised_bind]
      exact ⟨rfl, Or.inl ⟨x, rfl⟩⟩
    | false => exact invokeSync_digest Y env id tenant fn d body (env.nowMs + 5000) { s with admission }

/-- **No published revision can be reached by its digest**: in no state of the registry is the digest a qualifier, and
an invocation with it never gets to `run_one`. -/
theorem published_unreachable_by_digest (Y : Yojson) (path : Option Str) (fs : FileSystem) (ops : List Registry.Op)
    (tenant : TenantId) (fn : FunctionName) (d : Digest)
    (hpublished : (Registry.run Y path fs ops).1.Published tenant fn d) :
    ¬ ReachableByDigest (Registry.run Y path fs ops).1 tenant fn d ∧
      ∀ env async body (s : ServerState), s.registry = (Registry.run Y path fs ops).1 →
        s.registry.Published tenant fn d ∧
          StopsBeforeRunOne Y s (handleInvoke Y env tenant fn d.toStr async body s) := by
  refine ⟨not_reachableByDigest _ tenant fn d, ?_⟩
  intro env async body s hs
  exact ⟨hs ▸ hpublished, handleInvoke_digest Y env tenant fn d async body s⟩

/-- A registry with one revision. -/
def publishedOps (rev : Registry.Revision) : List Registry.Op := [.publish sampleTenant sampleFunction rev]

theorem published_publishedOps (Y : Yojson) (fs : FileSystem) (rev : Registry.Revision) :
    (Registry.run Y none fs (publishedOps rev)).1.Published sampleTenant sampleFunction rev.digest := by
  have hadd : (Registry.run Y none fs (publishedOps rev)).1.revisions =
      Hashtbl.empty.add (sampleTenant, sampleFunction, rev.digest) rev := rfl
  refine ⟨rev, ?_⟩
  rw [hadd, Hashtbl.findOpt_add, if_pos rfl]

/-- The digest of a published revision is no qualifier, and the request for it ends before `run_one`. -/
theorem digest_refused_as_qualifier :
    let t := (Registry.run sampleYojson none ⟨fun _ => none⟩ (publishedOps ⟨digestOf [], [], [], []⟩)).1
    let s : ServerState := { sampleState with registry := t }
    t.Published sampleTenant sampleFunction (digestOf []) ∧
      ¬ ReachableByDigest t sampleTenant sampleFunction (digestOf []) ∧
      StopsBeforeRunOne sampleYojson s
        (handleInvoke sampleYojson sampleEnv sampleTenant sampleFunction (digestOf []).toStr false [] s) := by
  intro t s
  exact ⟨published_publishedOps _ _ ⟨digestOf [], [], [], []⟩, not_reachableByDigest _ _ _ _,
    handleInvoke_digest _ _ _ _ _ _ _ _⟩

theorem published_unreachable_by_digest_sample :
    let t := (Registry.run sampleYojson none ⟨fun _ => none⟩ (publishedOps ⟨digestOf [], [], [], []⟩)).1
    t.Published sampleTenant sampleFunction (digestOf []) ∧
      ¬ ReachableByDigest t sampleTenant sampleFunction (digestOf []) := by
  intro t
  have hpublished := published_publishedOps sampleYojson ⟨fun _ => none⟩ ⟨digestOf [], [], [], []⟩
  exact ⟨hpublished, (published_unreachable_by_digest sampleYojson none ⟨fun _ => none⟩ (publishedOps _) sampleTenant
    sampleFunction (digestOf []) hpublished).1⟩

end MirageLambda
