import MirageLambda.Control.Checkpoint
import MirageLambda.Control.Integrity

/-!
# Restarting the control plane

`make_state` makes an empty registry with the path of the checkpoint (mirage_lambda_control.ml:37); nothing calls
`checkpoint_load`. So a restart forgets the aliases at once, and the first call that writes the checkpoint again drops
every revision of the process before from the file: `restart_keeps_iff`.
-/

namespace MirageLambda
open OCaml

/-- Nothing is published and no alias is set. -/
structure Registry.IsEmpty (t : Registry) : Prop where
  revisions : ∀ k, t.revisions.findOpt k = none
  aliases : ∀ k, t.aliases.findOpt k = none

/-- The state of a new process against the one of the process before: `resolve` answers as it did, and after any
further calls that succeed the checkpoint still has every revision that was published before. -/
structure RestartKeeps (Y : Yojson) (old new : ServerState) : Prop where
  resolves : ∀ tenant fn q, new.registry.resolve tenant fn q = old.registry.resolve tenant fn q
  contains : ∀ ops : List Registry.Op,
    Run.Along (Registry.step Y) (fun s op => Registry.result Y s op = .ok ()) (new.registry, new.fs) ops →
    ∀ k rev, old.registry.revisions.findOpt k = some rev →
      ∃ t, Registry.checkpointLoad Y (ops.foldl (Registry.step Y) (new.registry, new.fs)).2 new.config.checkpointPath =
        .ok t ∧ t.revisions.findOpt k = some rev

/-- A process starts with an empty registry, whatever the files hold. -/
theorem registry_makeState {config : Config} {fs : FileSystem} {s : ServerState} (hs : makeState config fs = .ok s) :
    s.registry = Registry.make (some config.checkpointPath) ∧ s.config = config := by
  obtain ⟨store, -, hstate⟩ := Outcome.bind_eq_ok.1 hs
  cases hstate
  exact ⟨rfl, rfl⟩

/-- An empty registry resolves nothing, so a registry that resolves the same has no alias. -/
theorem aliases_of_resolves {t : Registry} {path : Option Str}
    (h : ∀ tenant fn q, (Registry.make path).resolve tenant fn q = t.resolve tenant fn q) (k : TenantId × FunctionName × Alias) :
    t.aliases.findOpt k = none := by
  obtain ⟨tenant, fn, al⟩ := k
  cases hfind : t.aliases.findOpt (tenant, fn, al) with
  | none => rfl
  | some d =>
    obtain ⟨q, hq, -⟩ := Slug.ofString_of_isSlug (str "qualifier") al.isSlug
    have hold := Registry.resolve_eq_ok.2 ⟨al, hq.symm, hfind⟩
    rw [← h, Registry.resolve_eq_ok] at hold
    obtain ⟨al', -, hnone⟩ := hold
    cases hnone

/-- The call that shows the loss: any alias, moved in the new process. -/
def moveOp (d : Digest) : Registry.Op := .move Bundle.sampleTenant Bundle.sampleFunction Registry.blue d none

/-- After one call of the new process the checkpoint has no revision at all. -/
theorem load_after_move {Y : Yojson} (hY : Y.ReadsBackPlain) {path : Str} {fs : FileSystem} (d : Digest)
    (hopen : (fs.writeFile (ε := Error) path []).1 = .ok ()) :
    Registry.result Y (Registry.make (some path), fs) (moveOp d) = .ok () ∧
      ∃ t, Registry.checkpointLoad Y (Registry.step Y (Registry.make (some path), fs) (moveOp d)).2 path = .ok t ∧
        ∀ k, t.revisions.findOpt k = none := by
  have hok : Registry.result Y (Registry.make (some path), fs) (moveOp d) = .ok () := by
    show (fs.writeFile path _).1 = .ok ()
    rw [FileSystem.writeFile_of_open hopen]
  refine ⟨hok, ?_⟩
  obtain ⟨t, hload, hsame⟩ := Registry.load_step hY ⟨Registry.wellKeyed_make _, rfl⟩ hok
  refine ⟨t, hload, fun k => ?_⟩
  rw [hsame.revisions]
  rfl

/-- **A restart keeps the registry exactly when there was nothing in it.** For every run of the server, from any state,
and every new process on its files: if nothing was registered, both halves hold; if something was, one of them fails,
provided that the checkpoint can be written at all. -/
theorem restart_keeps_iff (Y : Yojson) (hY : Y.ReadsBackPlain) (config : Config) (s₀ : ServerState)
    (requests : List (HttpRequest × Env)) (s₁ : ServerState)
    (hs₁ : makeState config (handleAll Y s₀ requests).fs = .ok s₁) :
    let old := handleAll Y s₀ requests
    (old.registry.IsEmpty → RestartKeeps Y old s₁) ∧
      ((s₁.fs.writeFile (ε := Error) config.checkpointPath []).1 = .ok () →
        RestartKeeps Y old s₁ → old.registry.IsEmpty) := by
  intro old
  obtain ⟨hregistry, hconfig⟩ := registry_makeState hs₁
  constructor
  · intro hempty
    refine ⟨fun tenant fn q => ?_, fun ops _ k rev hrev => ?_⟩
    · apply Registry.resolve_congr
      intro k
      rw [hregistry, hempty.aliases]
      rfl
    · rw [hempty.revisions] at hrev
      cases hrev
  · intro hopen hkeeps
    refine ⟨fun k => ?_, ?_⟩
    · cases hrev : old.registry.revisions.findOpt k with
      | none => rfl
      | some rev =>
        -- one alias move of the new process, and the revision is gone from the file
        obtain ⟨hok, t, hload, hnone⟩ := load_after_move hY rev.digest hopen
        rw [← hregistry] at hok hload
        obtain ⟨t', hload', hfind⟩ := hkeeps.contains [moveOp rev.digest] ⟨hok, trivial⟩ k rev hrev
        rw [hconfig] at hload'
        obtain rfl : t = t' := Outcome.ok.inj (hload.symm.trans hload')
        rw [hnone] at hfind
        cases hfind
    · have hresolves := hkeeps.resolves
      rw [hregistry] at hresolves
      exact aliases_of_resolves hresolves

/-! ### An alias, and a restart -/

open JsonText (print plainYojson readsBackPlain_plainYojson)
open MirageLambda.Bundle (sampleTenant sampleFunction)

/-- `PUT …/aliases/blue` with a digest. -/
def aliasRequest : HttpRequest :=
  { meth := .put, path := str "/v1/tenants/acme/functions/hello/aliases/blue"
    authorization := some (str "Bearer dev-token")
    body := print (.assoc [(str "revision", .string Registry.digestA.toStr)]) }

/-- A process on files where the root of the objects is there. -/
def startedState (config : Config) (fs : FileSystem) : ServerState :=
  { config, artifactStore := ⟨config.artifactRoot⟩, registry := Registry.make (some config.checkpointPath)
    admission := Admission.make, scheduler := Scheduler.make, invocations := .empty, fs, qjs := .init }

theorem makeState_of_exists {config : Config} {fs : FileSystem} (h : fs.fileExists config.artifactRoot = true) :
    makeState config fs = .ok (startedState config fs) := by
  have hmade : ArtifactStore.ensureDir fs config.artifactRoot = (.ok (), fs) := by
    simp [ArtifactStore.ensureDir, ArtifactStore.mkAll, h]
  simp only [makeState, ArtifactStore.make, hmade]
  rfl

/-- The state of the process that served the request. -/
def servedState : ServerState := handleAll plainYojson sampleState [(aliasRequest, sampleEnv)]

theorem makeState_servedState :
    makeState (defaultConfig (str "/srv")) servedState.fs = .ok (startedState (defaultConfig (str "/srv")) servedState.fs) :=
  makeState_of_exists (by decide +kernel)

/-- The alias resolves in the process that moved it, not in the next one. -/
theorem alias_lost_on_restart :
    makeState (defaultConfig (str "/srv")) ⟨fun _ => none⟩ = .ok sampleState ∧
      ∃ s₁, makeState (defaultConfig (str "/srv")) servedState.fs = .ok s₁ ∧
        servedState.registry.resolve sampleTenant sampleFunction ⟨str "blue", by decide⟩ = .ok Registry.digestA ∧
        s₁.registry.resolve sampleTenant sampleFunction ⟨str "blue", by decide⟩ =
          .error (Registry.notFound "alias not found") ∧
        ¬ RestartKeeps plainYojson servedState s₁ := by
  have hold : servedState.registry.resolve sampleTenant sampleFunction ⟨str "blue", by decide⟩ = .ok Registry.digestA := by
    decide +kernel
  have hnew : (startedState (defaultConfig (str "/srv")) servedState.fs).registry.resolve sampleTenant sampleFunction
      ⟨str "blue", by decide⟩ = .error (Registry.notFound "alias not found") := by
    decide +kernel
  refine ⟨makeState_sample, _, makeState_servedState, hold, hnew, ?_⟩
  intro h
  have hsame := h.resolves sampleTenant sampleFunction ⟨str "blue", by decide⟩
  rw [hold, hnew] at hsame
  cases hsame

/-- A process that served nothing but a health check can be restarted. -/
theorem restart_keeps_iff_idle :
    let health : HttpRequest := { meth := .other, path := str "/healthz", authorization := none, body := [] }
    RestartKeeps plainYojson (handleAll plainYojson sampleState [(health, sampleEnv)])
      (startedState (defaultConfig (str "/srv")) (handleAll plainYojson sampleState [(health, sampleEnv)]).fs) := by
  intro health
  refine (restart_keeps_iff plainYojson readsBackPlain_plainYojson (defaultConfig (str "/srv")) sampleState
    [(health, sampleEnv)] _ (makeState_of_exists (by decide +kernel))).1 ?_
  exact ⟨fun _ => rfl, fun _ => rfl⟩

end MirageLambda
