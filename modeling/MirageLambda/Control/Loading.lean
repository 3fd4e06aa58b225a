import MirageLambda.Common.BundleRoundtrip
import MirageLambda.Control.WorkerPool

/-!
# Loading an accepted bundle (control/worker_pool.ml:44-60)

The bundle parser allows 4096 modules with paths of up to 1024 bytes and does not look for the entrypoint
among them. The engine's module map has 256 places for paths of under 512 bytes, and `eval_module` raises
when the entrypoint is not there. `loadBundle_completes_iff` says which accepted bundles an engine takes.
-/

namespace MirageLambda
open OCaml Qjs

/-- Steps 7 and 9 of `run_one`: load the modules, evaluate the entrypoint. -/
def loadBundle (env : WorkerEnv) (bundle : Bundle.Validated) (engine : Int) : Prog State Error Unit := do
  loadModules engine env.malloc 0 bundle.modules
  Engine.evalModule engine bundle.manifest.entrypoint env.js

/-- `run_one` loads the bundle right after `install_host`; an exception there leaves it. -/
theorem runEngine_of_loadBundle_raised {Y : Yojson} {env : WorkerEnv} {bundle : Bundle.Validated} {v : Int}
    {invId : InvocationId} {event : Str} {deadline : Int64} {st st' : State} {x : Exn}
    (hinstall : Engine.installHost (ε := Error) v st = (.ok (), st))
    (hload : loadBundle env bundle v st = (.raised x, st')) :
    runEngine Y env bundle v invId event deadline st = (.raised x, st') := by
  refine runEngine_of_raised ?_
  rw [driveEngine, Prog.bind_of_ok hinstall]
  rw [loadBundle] at hload
  rcases hmods : loadModules v env.malloc 0 bundle.modules st with ⟨r, st₁⟩
  cases r with
  | ok u =>
    rw [Prog.bind_of_ok hmods] at hload ⊢
    exact Prog.bind_of_raised hload
  | error e =>
    rw [Prog.bind_of_error hmods] at hload
    cases hload
  | raised y =>
    rw [Prog.bind_of_raised hmods] at hload ⊢
    cases hload
    rfl

/-- What the engine asks of a bundle, as long as there is memory. -/
structure FitsEngine (bundle : Bundle.Validated) : Prop where
  count : bundle.modules.length ≤ 256
  path : ∀ m ∈ bundle.modules, m.path.toStr.length < 512
  entrypoint : ∃ m ∈ bundle.modules, m.path = bundle.manifest.entrypoint

theorem fitsEngine_iff {env : WorkerEnv} (hmalloc : ∀ k, env.malloc k = true) {bundle : Bundle.Validated} :
    FitsEngine bundle ↔ Loads env.malloc bundle.modules ∧
      hasModule (moduleMap bundle.modules) bundle.manifest.entrypoint.toStr = true := by
  rw [hasModule_moduleMap]
  constructor
  · intro h
    exact ⟨⟨h.count, h.path, fun k _ => hmalloc k⟩, h.entrypoint⟩
  · rintro ⟨hloads, hentry⟩
    exact ⟨hloads.count, hloads.path, hentry⟩

/-- On an engine in service without modules, loading completes or raises. -/
theorem loadBundle_cases {env : WorkerEnv} (hmalloc : ∀ k, env.malloc k = true) (bundle : Bundle.Validated)
    {t : Table Runtime} {v : Int} {i : Fin tableCap} {ps : List Str} {st : State} (h : Serving t v i [] ps st) :
    (FitsEngine bundle ∧ ∃ st', loadBundle env bundle v st = (.ok (), st')) ∨
      (¬ FitsEngine bundle ∧ ∃ x st', loadBundle env bundle v st = (.raised x, st')) := by
  rw [fitsEngine_iff hmalloc, loadBundle]
  rcases loadModules_cases env.malloc 0 h bundle.modules with
    ⟨hload, st₁, hset, h₁⟩ | ⟨hnot, x, st₁, ms₁, hset, _⟩
  · rw [loadsFrom_nil_iff] at hload
    rw [List.nil_append] at h₁
    rw [Prog.bind_of_ok hset]
    rcases h₁.evalModule (ε := Error) bundle.manifest.entrypoint env.js with
      ⟨hhas, st₂, heval, _⟩ | ⟨hno, x, heval⟩
    · exact Or.inl ⟨⟨hload, hhas⟩, st₂, heval⟩
    · refine Or.inr ⟨?_, x, st₁, heval⟩
      rintro ⟨_, hhas⟩
      rw [hno] at hhas
      cases hhas
  · rw [loadsFrom_nil_iff] at hnot
    exact Or.inr ⟨fun hl => hnot hl.1, x, st₁, Prog.bind_of_raised hset⟩

/-- A handle that `create` returns and that is not stale names an engine in service. -/
theorem serving_of_create {alloc : Except AllocFailure Unit} {st₀ st : State} {v : Int} (hwf : st₀.handles.WF)
    (hcreate : Engine.create alloc st₀ = (.ok v, st)) (hlive : (tableGet st.handles v).isSome) :
    ∃ t i, Serving t v i [] [] st := by
  rcases Engine.create_cases hwf alloc with ⟨_, msg, herr⟩ | ⟨_, i, st₁, hfree, hok, hst₁⟩
  · rw [herr] at hcreate
    cases hcreate
  · rw [hok] at hcreate
    cases hcreate
    have hnone := firstFree_eq_some hfree
    by_cases hgen : (st₀.handles.generation i).toNat < 0x7fff
    · exact ⟨_, i, serving_install hwf hnone hgen st₀.nextSerial hst₁⟩
    · rw [hst₁, tableGet_install_stale hwf hnone hgen] at hlive
      cases hlive

/-- **Which accepted bundles an engine takes.** On a new engine, with memory for every copy, the loading
steps complete exactly for a bundle of at most 256 modules with paths of under 512 bytes that has its
entrypoint among them; for any other accepted bundle an exception leaves `run_one`. -/
theorem loadBundle_completes_iff (Y : Yojson) (env : WorkerEnv) (hmalloc : ∀ k, env.malloc k = true) (st₀ st : State)
    (v : Int) (hwf : st₀.handles.WF) (hcreate : Engine.create env.alloc st₀ = (.ok v, st))
    (hlive : (tableGet st.handles v).isSome) (s : Str) :
    ∀ bundle, Bundle.parse Y s = .ok bundle →
      ((∃ st', loadBundle env bundle v st = (.ok (), st')) ↔ FitsEngine bundle) ∧
      (¬ FitsEngine bundle → ∀ invId event deadline,
        ∃ x st', runEngine Y env bundle v invId event deadline st = (.raised x, st')) := by
  intro bundle _
  obtain ⟨t, i, hserving⟩ := serving_of_create hwf hcreate hlive
  rcases loadBundle_cases hmalloc bundle hserving with ⟨hfits, st', hok⟩ | ⟨hnot, x, st', hraised⟩
  · exact ⟨⟨fun _ => hfits, fun _ => ⟨st', hok⟩⟩, fun hnot => absurd hfits hnot⟩
  · refine ⟨⟨?_, fun hfits => absurd hfits hnot⟩, ?_⟩
    · rintro ⟨st'', hok⟩
      rw [hraised] at hok
      cases hok
    · intro _ invId event deadline
      exact ⟨x, st', runEngine_of_loadBundle_raised hserving.installHost hraised⟩

/-! ### The sample bundle, and one without modules -/

/-- A worker whose allocations succeed and whose JavaScript calls nothing. -/
def quietEnv : WorkerEnv where
  alloc := .ok ()
  malloc _ := true
  js :=
    { load := fun _ => [], call := fun _ => []
      turn := fun _ =>
        { pump := [], reply := fun _ => [], settle := [], check := [], evalInt := fun _ => .ok 0
          finish := [], evalString := fun _ => .ok [] } }
  sys _ _ := { nowMs := 0, memory := none, openfile := .ok (), read := .ok [] }
  durationMs := ⟨0⟩

/-- The first engine ever created. -/
theorem create_first :
    ∃ v st, Engine.create quietEnv.alloc State.init = (.ok v, st) ∧ (tableGet st.handles v).isSome := by
  refine ⟨65536, .first, ?_, by rw [tableGet_first]; rfl⟩
  simp only [Engine.create, quietEnv, create_init]

theorem fitsEngine_sample : FitsEngine Bundle.sampleValidated := by
  have hperm : (Bundle.sortByPath Bundle.sampleModules).Perm Bundle.sampleModules :=
    List.perm_insertionSort Bundle.PathLe Bundle.sampleModules
  have hmain := hperm.mem_iff.2 (List.head_mem (l := Bundle.sampleModules) (by decide))
  exact ⟨by decide, by decide, _, List.mem_map_of_mem hmain, rfl⟩

theorem loadBundle_sample :
    ∃ v st st', Bundle.parse Bundle.sampleYojson Bundle.sampleBundle = .ok Bundle.sampleValidated ∧
      Engine.create quietEnv.alloc State.init = (.ok v, st) ∧
      loadBundle quietEnv Bundle.sampleValidated v st = (.ok (), st') := by
  have hparse := Bundle.parse_eq_ok.2 ⟨_, _, Bundle.parsed_sampleBundle⟩
  obtain ⟨v, st, hcreate, hlive⟩ := create_first
  obtain ⟨hiff, _⟩ := loadBundle_completes_iff Bundle.sampleYojson quietEnv (fun _ => rfl) State.init st v wf_empty
    hcreate hlive Bundle.sampleBundle _ hparse
  obtain ⟨st', hok⟩ := hiff.2 fitsEngine_sample
  exact ⟨v, st, st', hparse, hcreate, hok⟩

/-- The sample's manifest without any module. -/
def emptyBundle : Str := Bundle.write (.object []) Bundle.sampleManifest Bundle.sampleManifestJson []

def emptyValidated : Bundle.Validated :=
  Bundle.written (.object []) Bundle.sampleManifestJson Bundle.sampleManifest Bundle.sampleManifest []

/-- The parser accepts it, and loading it raises: its entrypoint is not there. -/
theorem loadBundle_empty_raises :
    ∃ v st x st', Bundle.parse Bundle.sampleYojson emptyBundle = .ok emptyValidated ∧
      Engine.create quietEnv.alloc State.init = (.ok v, st) ∧ (tableGet st.handles v).isSome ∧
      (∀ k, quietEnv.malloc k = true) ∧ loadBundle quietEnv emptyValidated v st = (.raised x, st') := by
  have hP := Bundle.parsed_written Bundle.sampleYojson (.object []) Bundle.sampleManifestJson Bundle.sampleManifest
    Bundle.sampleManifest [] (by simp) Bundle.sample_floatFree Bundle.sample_readsBack.1 Bundle.sample_readsBack.2
    (by decide) (by decide) (by decide) (by decide) (by decide) (by decide) Bundle.length_sampleManifestJson_lt
    Bundle.sample_manifest_parses
  have hparse := Bundle.parse_eq_ok.2 ⟨_, _, hP⟩
  obtain ⟨v, st, hcreate, hlive⟩ := create_first
  obtain ⟨t, i, hserving⟩ := serving_of_create wf_empty hcreate hlive
  have hmalloc : ∀ k, quietEnv.malloc k = true := fun _ => rfl
  rcases loadBundle_cases hmalloc emptyValidated hserving with ⟨hfits, _⟩ | ⟨_, x, st', hraised⟩
  · obtain ⟨m, hm, _⟩ := hfits.entrypoint
    cases hm
  · exact ⟨v, st, x, st', hparse, hcreate, hlive, hmalloc, hraised⟩

end MirageLambda
