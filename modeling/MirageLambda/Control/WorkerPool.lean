import MirageLambda.Common.BundleRaises
import MirageLambda.Control.ArtifactStore
import MirageLambda.Control.Registry
import MirageLambda.Common.Protocol
import MirageLambda.Qjs.ModuleNames
import MirageLambda.Qjs.Ownership
import MirageLambda.Worker.RuntimeHost

/-!
# The worker pool (control/worker_pool.ml)

`runOne` in three parts: `fetchBundle` finds and reads the bundle (steps 1 to 3), then the policy is
compiled and the engine created, and `runEngine` does the rest (`driveEngine`, steps 7 to 11, and `destroy`).
What it meets outside the control plane is a `WorkerEnv`.

`runOne_cases` says when an exception leaves it and what is left in the handle table: nothing catches an
exception between `create` and `destroy`, so the slot stays taken. It also says when there is no end at all:
`destroy` aborts the process when the engine still has promises (`Aborts`).
-/

namespace MirageLambda
open OCaml Qjs

/-- Allocations of the C side, JavaScript, the operating system, and the time that passes. -/
structure WorkerEnv where
  alloc : Except AllocFailure Unit
  malloc : Nat → Bool
  js : Script
  sys : Nat → Nat → System
  durationMs : Float64

/-- `invocation_result` (worker_pool.ml:16). -/
structure InvocationResult where
  invocationId : InvocationId
  result : Completion
  durationMs : Float64

/-- Steps 1 to 3 of `run_one` (worker_pool.ml:30-35). -/
def fetchBundle (Y : Yojson) (store : ArtifactStore) (fs : FileSystem) (registry : Registry) (tenant : TenantId)
    (functionName : FunctionName) (qualifier : Qualifier) : Outcome Error Bundle.Validated := do
  let revId ← registry.resolve tenant functionName qualifier
  let revDigest ← (Digest.ofString revId.toStr).getOk
  let bundleBytes ← store.get fs revDigest
  Bundle.parse Y bundleBytes

/-- The `List.iter` of step 7 (worker_pool.ml:50), from module `k` on. -/
def loadModules (v : Int) (malloc : Nat → Bool) : Nat → List Bundle.ModuleEntry → Prog State Error Unit
  | _, [] => pure ()
  | k, m :: rest => do
    Engine.setModule v m.path m.content (malloc k)
    loadModules v malloc (k + 1) rest

/-- The script that calls the handler (worker_pool.ml:61-81). -/
def callSrc (entrypoint : ModulePath) (eventJson : Str) (invocationId : InvocationId) (deadlineMs : Int64) : Str :=
  str "globalThis.__done = false; globalThis.__result = null;\n(async () => \x7b\ntry \x7b\nconst handler = (await import(" ++
    camlString entrypoint.toStr ++
    str ")).default || globalThis.main || globalThis.handler;\nconst event = " ++
    (if eventJson = [] then str "null" else eventJson) ++
    str ";\nconst ctx = \x7b invocationId: " ++ camlString invocationId.toStr ++
    str ", attempt: 1, deadlineMs: " ++ intToString (int64ToInt deadlineMs) ++
    str " \x7d;\nconst result = await handler(event, \x7b\x7d, ctx);\nglobalThis.__result = result;\nglobalThis.__done = true;\n\x7d catch (e) \x7b\nglobalThis.__error = String(e && e.message || e);\nglobalThis.__done = true;\n\x7d\n\x7d)();"

/-- The implementations of step 8 (worker_pool.ml:53-57). -/
def workerImpls (limits : EngineLimits) : Implementations :=
  { log := HostLog.make limits.maxLogBytes, clock := .makeReal, crypto := .makeReal, kv := .empty }

/-- `run_one` from `install_host` to `drive` (worker_pool.ml:48-85). -/
def driveEngine (Y : Yojson) (env : WorkerEnv) (bundle : Bundle.Validated) (engine : Int) (invocationId : InvocationId)
    (eventJson : Str) (deadlineMs : Int64) : Prog State Error Completion := do
  let manifest := bundle.manifest
  Engine.installHost engine
  loadModules engine env.malloc 0 bundle.modules
  Engine.evalModule engine manifest.entrypoint env.js
  Engine.eval engine (callSrc manifest.entrypoint eventJson invocationId deadlineMs) env.js
  drive Y env.sys env.js engine 100 0 (workerImpls manifest.limits)

/-- `run_one` from `install_host` on (worker_pool.ml:48-91). -/
def runEngine (Y : Yojson) (env : WorkerEnv) (bundle : Bundle.Validated) (engine : Int) (invocationId : InvocationId)
    (eventJson : Str) (deadlineMs : Int64) : Prog State Error InvocationResult := do
  let completion ← driveEngine Y env bundle engine invocationId eventJson deadlineMs
  Engine.destroy engine
  pure { invocationId, result := completion, durationMs := env.durationMs }

/-- `run_one` (worker_pool.ml:25). -/
def runOne (Y : Yojson) (env : WorkerEnv) (store : ArtifactStore) (fs : FileSystem) (registry : Registry)
    (invocationId : InvocationId) (tenant : TenantId) (functionName : FunctionName) (qualifier : Qualifier)
    (eventJson : Str) (deadlineMs : Int64) : Prog State Error InvocationResult := do
  let bundle ← Prog.lift (fetchBundle Y store fs registry tenant functionName qualifier)
  let _policy ← Prog.lift ((compile bundle.manifest.capabilities).mapError fun e =>
    Error.make .invalidManifest .packageError e.toString)
  let engine ← (Engine.create env.alloc).mapError fun
    | .engine s => Error.make .workerFailure .functionException s
  runEngine Y env bundle engine invocationId eventJson deadlineMs

/-! ## Loading -/

/-- The modules as the map of the engine holds them. -/
def moduleMap (modules : List Bundle.ModuleEntry) : List (Str × Str) :=
  modules.map fun m => (m.path.toStr, m.content)

/-- The engine takes these modules: not too many, no path too long, memory for each. -/
structure Loads (malloc : Nat → Bool) (modules : List Bundle.ModuleEntry) : Prop where
  count : modules.length ≤ 256
  path : ∀ m ∈ modules, m.path.toStr.length < 512
  memory : ∀ k < modules.length, malloc k = true

/-- `Loads` as the loop sees it, after `ms` and from module `k` on. -/
def LoadsFrom (malloc : Nat → Bool) : Nat → List (Str × Str) → List Bundle.ModuleEntry → Prop
  | _, _, [] => True
  | k, ms, m :: rest =>
    Loadable ms m.path.toStr (malloc k) ∧ LoadsFrom malloc (k + 1) (ms ++ [(m.path.toStr, m.content)]) rest

theorem loadsFrom_iff {malloc : Nat → Bool} {k : Nat} {ms : List (Str × Str)} {modules : List Bundle.ModuleEntry} :
    LoadsFrom malloc k ms modules ↔ (∀ j < modules.length, ms.length + j < 256) ∧
      (∀ m ∈ modules, m.path.toStr.length < 512) ∧ ∀ j < modules.length, malloc (k + j) = true := by
  induction modules generalizing k ms with
  | nil => simp [LoadsFrom]
  | cons m rest ih =>
    have hsplit : ∀ p : Nat → Prop, (∀ j < (m :: rest).length, p j) ↔ p 0 ∧ ∀ j < rest.length, p (j + 1) := by
      intro p
      constructor
      · intro h
        exact ⟨h 0 (Nat.succ_pos _), fun j hj => h (j + 1) (Nat.succ_lt_succ hj)⟩
      · rintro ⟨h0, h⟩ j hj
        cases j with
        | zero => exact h0
        | succ j => exact h j (Nat.lt_of_succ_lt_succ hj)
    rw [LoadsFrom, ih, Loadable, hsplit (fun j => ms.length + j < 256), hsplit (fun j => malloc (k + j) = true)]
    simp only [List.length_append, List.length_singleton, List.mem_cons, forall_eq_or_imp, Nat.add_zero,
      Nat.add_assoc, Nat.add_comm 1]
    tauto

theorem loadsFrom_nil_iff {malloc : Nat → Bool} {modules : List Bundle.ModuleEntry} :
    LoadsFrom malloc 0 [] modules ↔ Loads malloc modules := by
  rw [loadsFrom_iff]
  simp only [List.length_nil, Nat.zero_add]
  constructor
  · rintro ⟨hcount, hpath, hmem⟩
    refine ⟨?_, hpath, hmem⟩
    by_contra hbig
    exact absurd (hcount 256 (by omega)) (by omega)
  · intro h
    exact ⟨fun j hj => Nat.lt_of_lt_of_le hj h.count, h.path, h.memory⟩

section
variable {t : Table Runtime} {v : Int} {i : Fin tableCap} {ps : List Str}

/-- The loop loads all modules or raises at the first it cannot. -/
theorem loadModules_cases (malloc : Nat → Bool) (k : Nat) {ms : List (Str × Str)} {st : State}
    (h : Serving t v i ms ps st) (modules : List Bundle.ModuleEntry) :
    (LoadsFrom malloc k ms modules ∧ ∃ st', loadModules v malloc k modules st = (.ok (), st') ∧
      Serving t v i (ms ++ moduleMap modules) ps st') ∨
    (¬ LoadsFrom malloc k ms modules ∧ ∃ x st' ms', loadModules v malloc k modules st = (.raised x, st') ∧
      Serving t v i ms' ps st') := by
  induction modules generalizing k ms st with
  | nil => exact Or.inl ⟨trivial, st, rfl, by simpa [moduleMap] using h⟩
  | cons m rest ih =>
    rw [loadModules, LoadsFrom]
    rcases h.setModule (ε := Error) m.path m.content (malloc k) with ⟨hload, st₁, hset, h₁⟩ | ⟨hnot, x, hset⟩
    · rw [Prog.bind_of_ok hset]
      rcases ih (k + 1) h₁ with ⟨hrest, st', hok, h'⟩ | ⟨hrest, x, st', ms', hx, h'⟩
      · refine Or.inl ⟨⟨hload, hrest⟩, st', hok, ?_⟩
        rw [List.append_assoc] at h'
        exact h'
      · exact Or.inr ⟨fun hl => hrest hl.2, x, st', ms', hx, h'⟩
    · exact Or.inr ⟨fun hl => hnot hl.1, x, st, ms, Prog.bind_of_raised hset, h⟩

end

theorem hasModule_moduleMap {modules : List Bundle.ModuleEntry} {path : ModulePath} :
    hasModule (moduleMap modules) path.toStr = true ↔ ∃ m ∈ modules, m.path = path := by
  simp only [hasModule, moduleMap, List.any_map, List.any_eq_true, Function.comp_apply, beq_iff_eq,
    cString_modulePath]
  constructor
  · rintro ⟨m, hm, heq⟩
    exact ⟨m, hm, Checked.ext heq⟩
  · rintro ⟨m, hm, rfl⟩
    exact ⟨m, hm, rfl⟩

/-! ## When an exception leaves -/

/-- The calls made before the dispatch loop: while the entrypoint is evaluated, then the calling script. -/
def firstCalls (js : Script) (bundle : Bundle.Validated) (src : Str) : List HostCall :=
  js.load bundle.manifest.entrypoint.toStr ++ js.call src

/-- The work on a live engine ends with an exception: a module cannot be loaded, the entrypoint is not
among the modules, or the loop stalls. -/
def EngineFails (Y : Yojson) (env : WorkerEnv) (bundle : Bundle.Validated) (src : Str) : Prop :=
  ¬ Loads env.malloc bundle.modules ∨ (∀ m ∈ bundle.modules, m.path ≠ bundle.manifest.entrypoint) ∨
    Stalls Y env.sys env.js (firstCalls env.js bundle src) 0 100

/-- The work raises or returns what the turns make of the handler. The engine stays in its slot. -/
theorem driveEngine_cases (Y : Yojson) (env : WorkerEnv) (bundle : Bundle.Validated) (invId : InvocationId)
    (event : Str) (deadline : Int64) {t : Table Runtime} {v : Int} {i : Fin tableCap} {st : State}
    (h : Serving t v i [] [] st) :
    (EngineFails Y env bundle (callSrc bundle.manifest.entrypoint event invId deadline) ∧
      ∃ x st' ms ps, driveEngine Y env bundle v invId event deadline st = (.raised x, st') ∧
        Serving t v i ms ps st') ∨
    (¬ EngineFails Y env bundle (callSrc bundle.manifest.entrypoint event invId deadline) ∧
      ∃ st' ms ps, driveEngine Y env bundle v invId event deadline st = (.ok (completed env.js 100 0), st') ∧
        Serving t v i ms ps st') := by
  unfold EngineFails
  rw [driveEngine, Prog.bind_of_ok h.installHost]
  rcases loadModules_cases env.malloc 0 h bundle.modules with
    ⟨hload, st₁, hset, h₁⟩ | ⟨hnot, x, st₁, ms₁, hset, h₁⟩
  rotate_left
  · rw [loadsFrom_nil_iff] at hnot
    exact Or.inl ⟨Or.inl hnot, x, st₁, ms₁, [], Prog.bind_of_raised hset, h₁⟩
  rw [loadsFrom_nil_iff] at hload
  rw [List.nil_append] at h₁
  rw [Prog.bind_of_ok hset]
  rcases h₁.evalModule (ε := Error) bundle.manifest.entrypoint env.js with
    ⟨hhas, st₂, heval, h₂⟩ | ⟨hno, x, heval⟩
  rotate_left
  · refine Or.inl ⟨Or.inr (Or.inl ?_), x, st₁, _, [], Prog.bind_of_raised heval, h₁⟩
    intro m hm heq
    rw [hasModule_moduleMap.2 ⟨m, hm, heq⟩] at hno
    cases hno
  have hentry : ¬ ∀ m ∈ bundle.modules, m.path ≠ bundle.manifest.entrypoint := by
    obtain ⟨m, hm, heq⟩ := hasModule_moduleMap.1 hhas
    exact fun hall => hall m hm heq
  obtain ⟨st₃, hcall, h₃⟩ :=
    h₂.eval (ε := Error) (callSrc bundle.manifest.entrypoint event invId deadline) env.js
  rw [Prog.bind_of_ok heval, Prog.bind_of_ok hcall]
  have hfirst : enqueue (enqueue (enqueue [] (env.js.load bundle.manifest.entrypoint.toStr))
      (env.js.call (callSrc bundle.manifest.entrypoint event invId deadline))) (env.js.turn 0).pump =
      waiting env.js (firstCalls env.js bundle (callSrc bundle.manifest.entrypoint event invId deadline)) 0 := by
    rw [waiting, enqueue_append, enqueue_append, firstCalls, List.append_assoc]
  rcases drive_cases (Y := Y) env.sys env.js 100 0 h₃ (workerImpls bundle.manifest.limits) rfl hfirst with
    ⟨hstall, x, st₄, ps₄, hdrive, h₄⟩ | ⟨hnstall, st₄, ps₄, hdrive, h₄⟩
  · exact Or.inl ⟨Or.inr (Or.inr hstall), x, st₄, _, ps₄, hdrive, h₄⟩
  · refine Or.inr ⟨?_, st₄, _, ps₄, hdrive, h₄⟩
    rintro (hl | he | hs)
    · exact hl hload
    · exact hentry he
    · exact hnstall hs

/-- After an exception there is no `destroy`. -/
theorem runEngine_of_raised {Y : Yojson} {env : WorkerEnv} {bundle : Bundle.Validated} {v : Int} {invId : InvocationId}
    {event : Str} {deadline : Int64} {st st' : State} {x : Exn}
    (h : driveEngine Y env bundle v invId event deadline st = (.raised x, st')) :
    runEngine Y env bundle v invId event deadline st = (.raised x, st') := by
  rw [runEngine]
  exact Prog.bind_of_raised h

/-- Otherwise the engine is destroyed, which is the end of the process when it still has promises. -/
theorem runEngine_of_ok {Y : Yojson} {env : WorkerEnv} {bundle : Bundle.Validated} {v : Int} {invId : InvocationId}
    {event : Str} {deadline : Int64} {st st' : State} {c : Completion}
    (h : driveEngine Y env bundle v invId event deadline st = (.ok c, st')) :
    runEngine Y env bundle v invId event deadline st =
      (if st'.freesRuntime v then .ok { invocationId := invId, result := c, durationMs := env.durationMs }
        else .raised .aborted, (Qjs.destroy (ε := Empty) st' v).2) := by
  rw [runEngine, Prog.bind_of_ok h]
  cases hfrees : st'.freesRuntime v with
  | true =>
    have hdestroy : Engine.destroy (ε := Error) v st' = (.ok (), (Qjs.destroy (ε := Empty) st' v).2) := by
      simp only [Engine.destroy, Qjs.destroy, hfrees, if_true]
    rw [Prog.bind_of_ok hdestroy]
    rfl
  | false =>
    have hdestroy : Engine.destroy (ε := Error) v st' = (.raised .aborted, (Qjs.destroy (ε := Empty) st' v).2) := by
      simp only [Engine.destroy, Qjs.destroy, hfrees, Bool.false_eq_true, if_false]
    rw [Prog.bind_of_raised hdestroy]
    rfl

/-- The bundle cannot be had: its file cannot be read, or it is one that the parser raises on. -/
def FetchFails (Y : Yojson) (store : ArtifactStore) (fs : FileSystem) (d : Digest) : Prop :=
  store.Unreadable fs d ∨ ∃ b, store.get fs d = .ok b ∧ ∃ h m n, Bundle.RaisesAt Y b h m n

theorem fetchBundle_eq {Y : Yojson} {store : ArtifactStore} {fs : FileSystem} {registry : Registry}
    {tenant : TenantId} {fn : FunctionName} {q : Qualifier} :
    fetchBundle Y store fs registry tenant fn q =
      registry.resolve tenant fn q >>= fun d => store.get fs d >>= Bundle.parse Y := by
  unfold fetchBundle Digest.ofString
  simp only [Checked.ofString_toStr, Outcome.getOk_ok, Outcome.ok_bind]

theorem fetchBundle_raises {Y : Yojson} {store : ArtifactStore} {fs : FileSystem} {registry : Registry}
    {tenant : TenantId} {fn : FunctionName} {q : Qualifier} :
    (fetchBundle Y store fs registry tenant fn q).Raises ↔
      ∃ d, registry.resolve tenant fn q = .ok d ∧ FetchFails Y store fs d := by
  rw [fetchBundle_eq, Outcome.raises_bind_of_returns (registry.resolve_returns tenant fn q)]
  simp only [Outcome.raises_bind, ArtifactStore.get_raises, Bundle.parse_raises_iff]
  rfl

theorem fetchBundle_eq_ok {Y : Yojson} {store : ArtifactStore} {fs : FileSystem} {registry : Registry}
    {tenant : TenantId} {fn : FunctionName} {q : Qualifier} {bundle : Bundle.Validated} :
    fetchBundle Y store fs registry tenant fn q = .ok bundle ↔
      ∃ d b, registry.resolve tenant fn q = .ok d ∧ store.get fs d = .ok b ∧ Bundle.parse Y b = .ok bundle := by
  rw [fetchBundle_eq]
  simp only [Outcome.bind_eq_ok]
  constructor
  · rintro ⟨d, hd, b, hb, hp⟩
    exact ⟨d, b, hd, hb, hp⟩
  · rintro ⟨d, b, hd, hb, hp⟩
    exact ⟨d, hd, b, hb, hp⟩

/-- **The inputs on which an exception leaves `run_one`.** The qualifier resolves, and then the bundle cannot
be had; or it parses, an engine can be created, and the engine's slot is at its last generation or the work
on the engine fails. -/
def Crashes (Y : Yojson) (env : WorkerEnv) (store : ArtifactStore) (fs : FileSystem) (registry : Registry)
    (invocationId : InvocationId) (tenant : TenantId) (functionName : FunctionName) (qualifier : Qualifier)
    (eventJson : Str) (deadlineMs : Int64) (st : State) : Prop :=
  ∃ d, registry.resolve tenant functionName qualifier = .ok d ∧ (FetchFails Y store fs d ∨
    ∃ b bundle i, store.get fs d = .ok b ∧ Bundle.parse Y b = .ok bundle ∧
      env.alloc = .ok () ∧ st.handles.firstFree = some i ∧
      (¬ (st.handles.generation i).toNat < 0x7fff ∨
        EngineFails Y env bundle (callSrc bundle.manifest.entrypoint eventJson invocationId deadlineMs)))

/-- **The inputs on which `run_one` does not come to an end.** The engine has been driven, and then a promise of it is
still held: a slot of `g_promises` with its resolving functions is in use, or `promise table full` leaked one. -/
def Aborts (Y : Yojson) (env : WorkerEnv) (store : ArtifactStore) (fs : FileSystem) (registry : Registry)
    (invocationId : InvocationId) (tenant : TenantId) (functionName : FunctionName) (qualifier : Qualifier)
    (eventJson : Str) (deadlineMs : Int64) (st : State) : Prop :=
  ∃ bundle engine st₁ completion st₂, fetchBundle Y store fs registry tenant functionName qualifier = .ok bundle ∧
    Engine.create env.alloc st = (.ok engine, st₁) ∧
    driveEngine Y env bundle engine invocationId eventJson deadlineMs st₁ = (.ok completion, st₂) ∧
    st₂.freesRuntime engine = false

section
variable {Y : Yojson} {env : WorkerEnv} {store : ArtifactStore} {fs : FileSystem} {registry : Registry}
  {invId : InvocationId} {tenant : TenantId} {fn : FunctionName} {q : Qualifier} {event : Str} {deadline : Int64}
  {st : State}

/-- `run_one` once the bundle is there: the policy always compiles. -/
theorem runOne_of_fetch {bundle : Bundle.Validated}
    (hfetch : fetchBundle Y store fs registry tenant fn q = .ok bundle) :
    runOne Y env store fs registry invId tenant fn q event deadline st =
      ((Engine.create env.alloc).mapError (fun
        | .engine s => Error.make .workerFailure .functionException s) >>= fun engine =>
          runEngine Y env bundle engine invId event deadline) st := by
  have hlift : (Prog.lift (fetchBundle Y store fs registry tenant fn q) : Prog State Error _) st =
      (.ok bundle, st) := by
    rw [hfetch, Prog.lift_apply]
  obtain ⟨policy, hpolicy⟩ := compile_ok bundle.manifest.capabilities
  have hcompile : (Prog.lift ((compile bundle.manifest.capabilities).mapError fun e =>
      Error.make .invalidManifest .packageError e.toString) : Prog State Error Policy) st = (.ok policy, st) := by
    rw [hpolicy, Prog.lift_apply, Outcome.mapError_ok]
  rw [runOne, Prog.bind_of_ok hlift, Prog.bind_of_ok hcompile]

/-- … and the engine has been created. -/
theorem runOne_of_create {bundle : Bundle.Validated} {v : Int} {st₁ : State}
    (hfetch : fetchBundle Y store fs registry tenant fn q = .ok bundle)
    (hcreate : Engine.create env.alloc st = (.ok v, st₁)) :
    runOne Y env store fs registry invId tenant fn q event deadline st =
      runEngine Y env bundle v invId event deadline st₁ := by
  have hok : ((Engine.create env.alloc).mapError fun
      | .engine s => Error.make .workerFailure .functionException s) st = (.ok v, st₁) := by
    rw [Prog.mapError, hcreate]
    rfl
  rw [runOne_of_fetch hfetch, Prog.bind_of_ok hok]

/-- What remains of the condition once the bundle is known. -/
theorem crashes_of_fetch {bundle : Bundle.Validated}
    (hfetch : fetchBundle Y store fs registry tenant fn q = .ok bundle) :
    Crashes Y env store fs registry invId tenant fn q event deadline st ↔
      ∃ i, env.alloc = .ok () ∧ st.handles.firstFree = some i ∧ (¬ (st.handles.generation i).toNat < 0x7fff ∨
        EngineFails Y env bundle (callSrc bundle.manifest.entrypoint event invId deadline)) := by
  obtain ⟨d, b, hd, hb, hp⟩ := fetchBundle_eq_ok.1 hfetch
  constructor
  · rintro ⟨d', hd', hfail | ⟨b', bundle', i, hb', hp', halloc, hfree, hrest⟩⟩
    · obtain ⟨x, hx⟩ := fetchBundle_raises.2 ⟨d', hd', hfail⟩
      rw [hfetch] at hx
      cases hx
    · rw [hd] at hd'
      cases hd'
      rw [hb] at hb'
      cases hb'
      rw [hp] at hp'
      cases hp'
      exact ⟨i, halloc, hfree, hrest⟩
  · rintro ⟨i, halloc, hfree, hrest⟩
    exact ⟨d, hd, Or.inr ⟨b, bundle, i, hb, hp, halloc, hfree, hrest⟩⟩

/-- Without a bundle there is nothing to crash after the fetch. -/
theorem not_crashes_of_fetch_error {e : Error} (hfetch : fetchBundle Y store fs registry tenant fn q = .error e) :
    ¬ Crashes Y env store fs registry invId tenant fn q event deadline st := by
  rintro ⟨d, hd, hfail | ⟨b, bundle, i, hb, hp, _⟩⟩
  · obtain ⟨x, hx⟩ := fetchBundle_raises.2 ⟨d, hd, hfail⟩
    rw [hfetch] at hx
    cases hx
  · rw [fetchBundle_eq_ok.2 ⟨d, b, hd, hb, hp⟩] at hfetch
    cases hfetch

/-- What remains of the other condition once the engine is there. -/
theorem aborts_of_create {bundle : Bundle.Validated} {v : Int} {st₁ : State}
    (hfetch : fetchBundle Y store fs registry tenant fn q = .ok bundle)
    (hcreate : Engine.create env.alloc st = (.ok v, st₁)) :
    Aborts Y env store fs registry invId tenant fn q event deadline st ↔
      ∃ c st₂, driveEngine Y env bundle v invId event deadline st₁ = (.ok c, st₂) ∧ st₂.freesRuntime v = false := by
  constructor
  · rintro ⟨bundle', v', st₁', c, st₂, hfetch', hcreate', hdrive, hheld⟩
    rw [hfetch] at hfetch'
    cases hfetch'
    rw [hcreate] at hcreate'
    cases hcreate'
    exact ⟨c, st₂, hdrive, hheld⟩
  · rintro ⟨c, st₂, hdrive, hheld⟩
    exact ⟨bundle, v, st₁, c, st₂, hfetch, hcreate, hdrive, hheld⟩

/-- An engine whose work fails is not destroyed. -/
theorem not_aborts_of_raised {bundle : Bundle.Validated} {v : Int} {st₁ st₂ : State} {x : Exn}
    (hfetch : fetchBundle Y store fs registry tenant fn q = .ok bundle)
    (hcreate : Engine.create env.alloc st = (.ok v, st₁))
    (hdrive : driveEngine Y env bundle v invId event deadline st₁ = (.raised x, st₂)) :
    ¬ Aborts Y env store fs registry invId tenant fn q event deadline st := by
  rw [aborts_of_create hfetch hcreate, hdrive]
  rintro ⟨c, st₂', h, -⟩
  cases h

/-- The slot that an engine took is free again once it is destroyed. -/
theorem occupied_destroy_install {t : Table Runtime} {i : Fin tableCap} {q : Runtime} {v : Int} {ms : List (Str × Str)}
    {ps : List Str} {st : State} (hnone : t.table i = none) (h : Serving (t.install i q) v i ms ps st) :
    (Qjs.destroy (ε := Empty) st v).2.handles.occupied = t.occupied := by
  funext j
  have hj := h.destroy j
  rw [occupied_install] at hj
  refine propext (hj.trans ?_)
  constructor
  · rintro ⟨hji, rfl | hocc⟩
    · exact absurd rfl hji
    · exact hocc
  · intro hocc
    refine ⟨?_, Or.inr hocc⟩
    rintro rfl
    exact hocc hnone

/-- `run_one` once the work on the engine is done: it aborts, or it returns and the slot is free again. -/
theorem runOne_driven (hwf : st.handles.WF) {bundle : Bundle.Validated} {i : Fin tableCap}
    (hfetch : fetchBundle Y store fs registry tenant fn q = .ok bundle) (halloc : env.alloc = .ok ())
    (hfree : st.handles.firstFree = some i) (hgen : (st.handles.generation i).toNat < 0x7fff)
    (hworks : ¬ EngineFails Y env bundle (callSrc bundle.manifest.entrypoint event invId deadline)) :
    ∃ r st', runOne Y env store fs registry invId tenant fn q event deadline st = (r, st') ∧
      (Aborts Y env store fs registry invId tenant fn q event deadline st → r = .raised .aborted) ∧
      (¬ Aborts Y env store fs registry invId tenant fn q event deadline st → r = .ok
        { invocationId := invId, result := completed env.js 100 0, durationMs := env.durationMs }) ∧
      st'.handles.WF ∧ st'.handles.occupied = st.handles.occupied := by
  obtain ⟨hno, _⟩ | ⟨_, i', st₁, hfree', hcreate, hst₁⟩ := Engine.create_cases hwf env.alloc
  · rw [halloc, hfree] at hno
    simp at hno
  rw [hfree] at hfree'
  cases hfree'
  have hnone := firstFree_eq_some hfree
  have hserving := serving_install hwf hnone hgen st.nextSerial hst₁
  obtain ⟨hfails, _⟩ | ⟨_, st₂, ms, ps, hdrive, h₂⟩ :=
    driveEngine_cases Y env bundle invId event deadline hserving
  · exact absurd hfails hworks
  have haborts : Aborts Y env store fs registry invId tenant fn q event deadline st ↔
      st₂.freesRuntime (st.handles.handleAt i) = false := by
    rw [aborts_of_create hfetch hcreate, hdrive]
    constructor
    · rintro ⟨c, st₂', ⟨rfl⟩, hheld⟩
      exact hheld
    · intro hheld
      exact ⟨_, st₂, rfl, hheld⟩
  refine ⟨_, _, (runOne_of_create hfetch hcreate).trans (runEngine_of_ok hdrive), ?_, ?_,
    (h₂.wf (hwf.install hnone _)).destroy _, occupied_destroy_install hnone h₂⟩
  · intro h
    rw [haborts.1 h]
    rfl
  · intro h
    rw [haborts, Bool.not_eq_false] at h
    rw [h]
    rfl

/-- When nothing goes wrong before `destroy`, it is `destroy` that decides. -/
theorem runOne_completes_iff (hwf : st.handles.WF) {bundle : Bundle.Validated} {i : Fin tableCap}
    (hfetch : fetchBundle Y store fs registry tenant fn q = .ok bundle) (halloc : env.alloc = .ok ())
    (hfree : st.handles.firstFree = some i) (hgen : (st.handles.generation i).toNat < 0x7fff)
    (hworks : ¬ EngineFails Y env bundle (callSrc bundle.manifest.entrypoint event invId deadline)) :
    (∃ r st', runOne Y env store fs registry invId tenant fn q event deadline st = (.ok r, st')) ↔
      ¬ Aborts Y env store fs registry invId tenant fn q event deadline st := by
  obtain ⟨r, st', hrun, haborts, hreturns, -⟩ := runOne_driven hwf hfetch halloc hfree hgen hworks
  rw [hrun]
  constructor
  · rintro ⟨a, _, ⟨rfl⟩⟩ h
    cases haborts h
  · intro h
    exact ⟨_, st', by rw [hreturns h]⟩

variable (Y env store fs registry invId tenant fn q event deadline) in
/-- **`run_one` raises exactly when it crashes, and ends the process exactly when it aborts; otherwise the occupied slots
are what they were**, and a result is what `drive` made of the handler. -/
theorem runOne_cases (hwf : st.handles.WF) :
    (Crashes Y env store fs registry invId tenant fn q event deadline st ∧
      ¬ Aborts Y env store fs registry invId tenant fn q event deadline st ∧
      ∃ x st', runOne Y env store fs registry invId tenant fn q event deadline st = (.raised x, st') ∧
        st'.handles.WF) ∨
    (¬ Crashes Y env store fs registry invId tenant fn q event deadline st ∧
      Aborts Y env store fs registry invId tenant fn q event deadline st ∧
      ∃ st', runOne Y env store fs registry invId tenant fn q event deadline st = (.raised .aborted, st') ∧
        st'.handles.WF) ∨
    (¬ Crashes Y env store fs registry invId tenant fn q event deadline st ∧
      ¬ Aborts Y env store fs registry invId tenant fn q event deadline st ∧
      ∃ r st', runOne Y env store fs registry invId tenant fn q event deadline st = (r, st') ∧ r.Returns ∧
        (∀ a, r = .ok a → a.result = completed env.js 100 0) ∧
        st'.handles.WF ∧ st'.handles.occupied = st.handles.occupied) := by
  cases hfetch : fetchBundle Y store fs registry tenant fn q with
  | raised x =>
    obtain ⟨d, hd, hfail⟩ := fetchBundle_raises.1 ⟨x, hfetch⟩
    refine Or.inl ⟨⟨d, hd, Or.inl hfail⟩, ?_, x, st, ?_, hwf⟩
    · rintro ⟨bundle, -, -, -, -, h, -⟩
      rw [hfetch] at h
      cases h
    · rw [runOne]
      exact Prog.bind_of_raised (by rw [hfetch, Prog.lift_apply])
  | error e =>
    refine Or.inr (Or.inr ⟨not_crashes_of_fetch_error hfetch, ?_, .error e, st, ?_, Outcome.returns_error e,
      fun _ h => (nomatch h), hwf, rfl⟩)
    · rintro ⟨bundle, -, -, -, -, h, -⟩
      rw [hfetch] at h
      cases h
    · rw [runOne]
      exact Prog.bind_of_error (by rw [hfetch, Prog.lift_apply])
  | ok bundle =>
    rw [crashes_of_fetch hfetch]
    obtain ⟨hno, msg, hcreate⟩ | ⟨halloc, i, st₁, hfree, hcreate, hst₁⟩ := Engine.create_cases hwf env.alloc
    · refine Or.inr (Or.inr ⟨?_, ?_, .error (Error.make .workerFailure .functionException msg),
        { st with nextSerial := st.nextSerial + 1 }, ?_, Outcome.returns_error _, fun _ h => (nomatch h), hwf, rfl⟩)
      · rintro ⟨i, halloc, hfree, _⟩
        rcases hno with hno | hno
        · exact hno halloc
        · rw [hno] at hfree
          cases hfree
      · rintro ⟨-, v, st₁, -, -, -, h, -⟩
        rw [hcreate] at h
        cases h
      · rw [runOne_of_fetch hfetch]
        refine Prog.bind_of_error ?_
        rw [Prog.mapError, hcreate]
        rfl
    · have hnone := firstFree_eq_some hfree
      have hcrashes : ∀ {P : Prop}, (∃ j, env.alloc = .ok () ∧ st.handles.firstFree = some j ∧
          (¬ (st.handles.generation j).toNat < 0x7fff ∨ P)) → ¬ (st.handles.generation i).toNat < 0x7fff ∨ P := by
        rintro P ⟨j, -, hfree', hrest⟩
        rw [hfree] at hfree'
        cases hfree'
        exact hrest
      by_cases hgen : (st.handles.generation i).toNat < 0x7fff
      · have hserving := serving_install hwf hnone hgen st.nextSerial hst₁
        by_cases hfails : EngineFails Y env bundle (callSrc bundle.manifest.entrypoint event invId deadline)
        · obtain ⟨-, x, st', ms, ps, hx, h'⟩ | ⟨hworks, _⟩ :=
            driveEngine_cases Y env bundle invId event deadline hserving
          · refine Or.inl ⟨⟨i, halloc, hfree, Or.inr hfails⟩, not_aborts_of_raised hfetch hcreate hx, x, st', ?_,
              h'.wf (hwf.install hnone _)⟩
            rw [runOne_of_create hfetch hcreate]
            exact runEngine_of_raised hx
          · exact absurd hfails hworks
        · obtain ⟨r, st', hrun, haborts, hreturns, hwf', hocc⟩ := runOne_driven hwf hfetch halloc hfree hgen hfails
          have hno := fun h => (hcrashes h).elim (fun h => h hgen) hfails
          refine Or.inr ?_
          by_cases habort : Aborts Y env store fs registry invId tenant fn q event deadline st
          · rw [haborts habort] at hrun
            exact Or.inl ⟨hno, habort, st', hrun, hwf'⟩
          · rw [hreturns habort] at hrun
            refine Or.inr ⟨hno, habort, .ok _, st', hrun, Outcome.returns_ok _, ?_, hwf', hocc⟩
            rintro a ⟨rfl⟩
            rfl
      · -- the handle is negative: the first call on it raises
        have hstale := tableGet_install_stale hwf hnone hgen (.fresh st.nextSerial)
        have hx : driveEngine Y env bundle (st.handles.handleAt i) invId event deadline st₁ =
            (.raised (.failure (str "mlqjs_install_host: stale handle")), st₁) := by
          refine Prog.bind_of_raised ?_
          simp only [Engine.installHost, mlqjsInstallHost, hst₁, hstale]
        refine Or.inl ⟨⟨i, halloc, hfree, Or.inl hgen⟩, not_aborts_of_raised hfetch hcreate hx,
          .failure (str "mlqjs_install_host: stale handle"), st₁, ?_, by rw [hst₁]; exact hwf.install hnone _⟩
        rw [runOne_of_create hfetch hcreate]
        exact runEngine_of_raised hx

/-- A result that is returned is what `drive` made of the handler. -/
theorem result_of_runOne (hwf : st.handles.WF) {r : InvocationResult} {st' : State}
    (hrun : runOne Y env store fs registry invId tenant fn q event deadline st = (.ok r, st')) :
    r.result = completed env.js 100 0 := by
  obtain ⟨-, -, x, _, hx, -⟩ | ⟨-, -, _, hx, -⟩ | ⟨-, -, _, _, hr, _, hresult, -⟩ :=
    runOne_cases Y env store fs registry invId tenant fn q event deadline hwf
  · rw [hx] at hrun
    cases hrun
  · rw [hx] at hrun
    cases hrun
  · rw [hr] at hrun
    cases hrun
    exact hresult r rfl

end

/-! ## JavaScript that asks for nothing -/

/-- A turn without a host call. -/
structure Qjs.Turn.Quiet (turn : Turn) : Prop where
  pump : turn.pump = []
  reply : ∀ k, turn.reply k = []
  settle : turn.settle = []
  check : turn.check = []
  finish : turn.finish = []

/-- A script without a host call. -/
structure Qjs.Script.Quiet (js : Script) : Prop where
  load : ∀ path, js.load path = []
  call : ∀ src, js.call src = []
  turn : ∀ t, (js.turn t).Quiet

/-- The engine can be destroyed. -/
def Destroyable (v : Int) (st : State) : Prop := st.freesRuntime v = true

section
variable {v : Int} {st : State}

/-- A write to the runtime does not change the engine, nor what is held of it. -/
theorem Destroyable.modify (h : Destroyable v st) {i : Fin tableCap} {q : Runtime}
    (hget : tableGet st.handles v = some (i, q)) {f : Runtime → Runtime} (hf : (f q).serial = q.serial) :
    Destroyable v { st with handles := st.handles.modify i f } := by
  unfold Destroyable State.freesRuntime at h ⊢
  simp only [hget] at h
  simp only [tableGet_modify hget f, hf]
  exact h

theorem maintains_destroyable_setModule (path : ModulePath) (src : Str) (malloc : Bool) :
    Prog.Maintains (Destroyable v) (Engine.setModule (ε := Error) v path src malloc) := by
  intro st h
  unfold Engine.setModule mlqjsSetModule
  cases hget : tableGet st.handles v with
  | none => exact h
  | some r =>
    obtain ⟨i, q⟩ := r
    simp only []
    split_ifs
    · exact h
    · exact h
    · exact h
    · exact h.modify hget rfl

theorem maintains_destroyable_loadModules (malloc : Nat → Bool) (k : Nat) (modules : List Bundle.ModuleEntry) :
    Prog.Maintains (Destroyable v) (loadModules v malloc k modules) := by
  induction modules generalizing k with
  | nil => exact Prog.maintains_pure _ ()
  | cons m rest ih =>
    exact Prog.Maintains.bind (maintains_destroyable_setModule m.path m.content (malloc k)) fun _ => ih (k + 1)

theorem maintains_destroyable_takeHostRequests :
    Prog.Maintains (Destroyable v) (Engine.takeHostRequests (ε := Error) v) := by
  refine Prog.Maintains.bind (fun st h => ?_) fun _ => Prog.maintains_pure _ _
  unfold mlqjsTakeRequests
  cases hget : tableGet st.handles v with
  | none => exact h
  | some r =>
    obtain ⟨i, q⟩ := r
    exact h.modify hget rfl

/-- A resolve only empties a slot. -/
theorem maintains_destroyable_resolve (id : UInt64) (json : Str) :
    Prog.Maintains (Destroyable v) (Engine.resolve (ε := Error) v id json []) := by
  intro st h
  rw [Engine.resolve_nil]
  unfold mlqjsResolve
  cases hget : tableGet st.handles v with
  | none => exact h
  | some r =>
    simp only []
    split
    · exact h
    · rename_i j _
      unfold Destroyable State.freesRuntime at h ⊢
      simp only [hget, Bool.not_eq_true', retains_eq_false] at h ⊢
      exact ⟨fun k s hs => h.1 k s (promiseRemove_eq_some.1 hs).2, h.2⟩

theorem maintains_destroyable_serve (Y : Yojson) (sys : Nat → System) {turn : Turn} (hquiet : turn.Quiet) (k : Nat)
    (impls : Implementations) (reqs : List HostRequest) :
    Prog.Maintains (Destroyable v) (serve Y sys turn v k impls reqs) := by
  induction reqs generalizing k impls with
  | nil => exact Prog.maintains_pure _ impls
  | cons req rest ih =>
    refine Prog.Maintains.bind ?_ fun _ => ih (k + 1) _
    rw [hquiet.reply k]
    unfold deliver
    split
    · exact maintains_destroyable_resolve _ _
    · exact maintains_destroyable_resolve _ _
    · exact Prog.maintains_lift _ _

/-- Without host calls the engine never comes to hold a promise. -/
theorem maintains_destroyable_drive (Y : Yojson) (sys : Nat → Nat → System) {js : Script} (hquiet : js.Quiet) (n t : Nat)
    (impls : Implementations) : Prog.Maintains (Destroyable v) (drive Y sys js v n t impls) := by
  have hpump : Prog.Maintains (Destroyable v) (Engine.pump (ε := Error) v []) := by
    intro st h
    unfold Engine.pump
    split <;> exact h
  have hcheck : ∀ t, Prog.Maintains (Destroyable v)
      (Engine.evalInt (ε := Error) v (str "__done ? 1 : 0") (js.turn t)) := by
    intro t st h
    unfold Engine.evalInt
    rw [(hquiet.turn t).check]
    split
    · exact h
    · simp only []
      split <;> exact h
  have hread : ∀ t, Prog.Maintains (Destroyable v) (readResult v (js.turn t)) := by
    intro t
    refine Prog.Maintains.bind (fun st h => ?_) fun result => ?_
    · unfold Engine.evalString
      rw [(hquiet.turn t).finish]
      split
      · exact h
      · simp only []
        split <;> exact h
    · split <;> exact Prog.maintains_pure _ _
  induction n generalizing t impls with
  | zero => exact Prog.maintains_pure _ _
  | succ n ih =>
    rw [drive]
    simp only [(hquiet.turn t).pump, (hquiet.turn t).settle]
    refine Prog.Maintains.bind hpump fun _ => ?_
    refine Prog.Maintains.bind maintains_destroyable_takeHostRequests fun reqs => ?_
    refine Prog.Maintains.bind (maintains_destroyable_serve Y (sys t) (hquiet.turn t) 0 impls reqs) fun impls => ?_
    refine Prog.Maintains.bind hpump fun _ => ?_
    refine Prog.Maintains.bind (hcheck t) fun done => ?_
    split
    · exact hread t
    · exact ih (t + 1) impls

theorem maintains_destroyable_driveEngine (Y : Yojson) {env : WorkerEnv} (hquiet : env.js.Quiet)
    (bundle : Bundle.Validated) (invId : InvocationId) (event : Str) (deadline : Int64) :
    Prog.Maintains (Destroyable v) (driveEngine Y env bundle v invId event deadline) := by
  have heval : ∀ path, Prog.Maintains (Destroyable v) (Engine.evalModule (ε := Error) v path env.js) := by
    intro path st h
    unfold Engine.evalModule
    rw [hquiet.load, Prog.get_bind]
    exact Prog.Maintains.bind (Prog.maintains_lift _ _) (fun _ _ hs => hs) st h
  have hcall : ∀ src, Prog.Maintains (Destroyable v) (Engine.eval (ε := Error) v src env.js) := by
    intro src st h
    unfold Engine.eval
    rw [hquiet.call]
    split <;> exact h
  refine Prog.Maintains.bind (fun _ h => h) fun _ => ?_
  refine Prog.Maintains.bind (maintains_destroyable_loadModules _ _ _) fun _ => ?_
  refine Prog.Maintains.bind (heval _) fun _ => ?_
  exact Prog.Maintains.bind (hcall _) fun _ => maintains_destroyable_drive Y env.sys hquiet 100 0 _

/-- A new engine holds nothing, as long as nothing is held under its number. -/
theorem destroyable_create {alloc : Except AllocFailure Unit} {st₁ : State} (hwf : st.handles.WF)
    (hfresh : st.retains st.nextSerial = false) (hcreate : Engine.create alloc st = (.ok v, st₁)) :
    Destroyable v st₁ := by
  obtain ⟨_, msg, herr⟩ | ⟨-, i, st₂, hfree, hok, hst₂⟩ := Engine.create_cases hwf alloc
  · rw [herr] at hcreate
    cases hcreate
  rw [hok] at hcreate
  cases hcreate
  have hheld : st₁.retains st.nextSerial = false := by
    have heq : st₁ = (Engine.create alloc st).2 := by rw [hok]
    rw [heq]
    unfold Engine.create
    simp only []
    split <;> exact hfresh
  unfold Destroyable State.freesRuntime
  by_cases hgen : (st.handles.generation i).toNat < 0x7fff
  · rw [hst₂, tableGet_install hwf (firstFree_eq_some hfree) hgen]
    simp only [Runtime.fresh, hheld, Bool.not_false]
  · rw [hst₂, tableGet_install_stale hwf (firstFree_eq_some hfree) hgen]

/-- **An invocation without host calls does not abort.** -/
theorem not_aborts_of_quiet (hwf : st.handles.WF) (hfresh : st.retains st.nextSerial = false) {Y : Yojson}
    {env : WorkerEnv} (hquiet : env.js.Quiet) {store : ArtifactStore} {fs : FileSystem} {registry : Registry}
    {invId : InvocationId} {tenant : TenantId} {fn : FunctionName} {q : Qualifier} {event : Str} {deadline : Int64} :
    ¬ Aborts Y env store fs registry invId tenant fn q event deadline st := by
  rintro ⟨bundle, v, st₁, c, st₂, -, hcreate, hdrive, hheld⟩
  have h := maintains_destroyable_driveEngine Y hquiet bundle invId event deadline st₁
    (destroyable_create hwf hfresh hcreate)
  rw [hdrive, Destroyable, hheld] at h
  cases h

end

end MirageLambda
