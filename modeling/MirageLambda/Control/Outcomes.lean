import MirageLambda.Control.Aliases
import MirageLambda.Control.Loading

/-!
# What is reported of a handler (control/worker_pool.ml:61-91, worker/runtime_host.ml:36-42)

The calling script keeps the outcome of the handler in three globals. Its `try` block writes `__result` and
`__done`, its `catch` block `__error` and `__done`. `drive` asks for `__done` and then for `__result`; nothing
asks for `__error`. So an exception of the handler is reported as the `null` that `__result` started with, and
`runOne_faithful_iff` says that the report is right exactly for the handlers that do not throw in time.
-/

namespace MirageLambda
open OCaml Qjs

/-! ## The globals -/

/-- How the `try` block ends: with the value of the awaited call, or with an exception, in the text that `catch`
makes of it. A failing `import` is one too. -/
inductive Settlement (V : Type) where
  | fulfilled (value : V)
  | rejected (msg : Str)

/-- `__done`, `__result` and `__error`; `none` is `null` or not there. -/
structure Globals (V : Type) where
  done : Bool
  result : Option V
  error : Option Str

section
variable {V : Type}

/-- The first line of the script (worker_pool.ml:62). -/
def Globals.start : Globals V := { done := false, result := none, error := none }

/-- The end of the `try` block, and the `catch` block (worker_pool.ml:69-75). -/
def Globals.settle (g : Globals V) : Settlement V → Globals V
  | .fulfilled value => { g with result := some value, done := true }
  | .rejected msg => { g with error := some msg, done := true }

/-- `__done ? 1 : 0` -/
def Globals.isDone (g : Globals V) : Int := if g.done then 1 else 0

/-- `JSON.stringify(globalThis.__result || null)`, where `stringify` is what it makes of a value. -/
def Globals.text (stringify : V → Except EvalFailure Str) (g : Globals V) : Except EvalFailure Str :=
  match g.result with
  | some value => stringify value
  | none => .ok (str "null")

/-- A handler: the turn whose completion check is the first to find its call settled, and how; `none` when it never
is. -/
def Behaviour (V : Type) : Type := Option (Nat × Settlement V)

/-- The globals at the completion check of turn `t`. -/
def Behaviour.globals (b : Behaviour V) (t : Nat) : Globals V :=
  match b with
  | some (k, s) => if k ≤ t then Globals.start.settle s else .start
  | none => .start

/-- JavaScript that runs this handler: the two expressions read the globals. The host calls are free. -/
structure Runs (stringify : V → Except EvalFailure Str) (js : Script) (b : Behaviour V) : Prop where
  done : ∀ t, (js.turn t).evalInt (str "__done ? 1 : 0") = .ok (b.globals t).isDone
  result : ∀ t, (js.turn t).evalString (str "JSON.stringify(globalThis.__result || null)") =
    (b.globals t).text stringify

/-- The report is right: an exception in time is reported with its text, and only a handler that fulfilled is
reported as fulfilled. -/
structure Faithful (b : Behaviour V) (c : Completion) : Prop where
  rejected : ∀ k msg, b = some (k, .rejected msg) → k < 100 → c = .rejected msg
  fulfilled : ∀ json, c = .fulfilled json → ∃ k value, b = some (k, .fulfilled value)

/-! ## The loop -/

variable {stringify : V → Except EvalFailure Str} {js : Script} {b : Behaviour V}

theorem Runs.finished_iff (h : Runs stringify js b) (t : Nat) :
    Finished (js.turn t) ↔ ∃ k s, b = some (k, s) ∧ k ≤ t := by
  rw [Finished, h.done]
  unfold Behaviour.globals
  cases b with
  | none =>
    refine iff_of_false (by simp [Globals.isDone, Globals.start]) ?_
    rintro ⟨k, s, hb, _⟩
    cases hb
  | some r =>
    obtain ⟨k, s⟩ := r
    by_cases hk : k ≤ t
    · have hdone : (Globals.start.settle s).done = true := by cases s <;> rfl
      exact iff_of_true (by simp [hk, Globals.isDone, hdone]) ⟨k, s, rfl, hk⟩
    · refine iff_of_false (by simp [hk, Globals.isDone, Globals.start]) ?_
      rintro ⟨k', s', hb, hle⟩
      cases hb
      exact hk hle

/-- A handler that settles in time is found at the turn it settles. -/
theorem completed_of_settled (h : Runs stringify js b) {k : Nat} {s : Settlement V} (hb : b = some (k, s)) {n t : Nat}
    (ht : t ≤ k) (hk : k < t + n) : completed js n t = (js.turn k).completion := by
  induction n generalizing t with
  | zero => omega
  | succ n ih =>
    rw [completed]
    by_cases hkt : k = t
    · subst hkt
      rw [if_pos ((h.finished_iff k).2 ⟨k, s, hb, le_refl k⟩)]
    · have hpending : ¬ Finished (js.turn t) := by
        rw [h.finished_iff]
        rintro ⟨k', s', hb', hle⟩
        rw [hb] at hb'
        cases hb'
        omega
      rw [if_neg hpending]
      exact ih (by omega) (by omega)

/-- Otherwise the loop runs out of turns. -/
theorem completed_of_pending (h : Runs stringify js b) {n t : Nat} (hb : ∀ k s, b = some (k, s) → t + n ≤ k) :
    ∃ e, completed js n t = .timeout e := by
  induction n generalizing t with
  | zero => exact ⟨_, rfl⟩
  | succ n ih =>
    have hpending : ¬ Finished (js.turn t) := by
      rw [h.finished_iff]
      rintro ⟨k, s, hs, hle⟩
      have := hb k s hs
      omega
    rw [completed, if_neg hpending]
    apply ih
    intro k s hs
    have := hb k s hs
    omega

/-- A handler that throws is reported with the result it did not get to set. -/
theorem completion_of_rejected (h : Runs stringify js b) {k : Nat} {msg : Str} (hb : b = some (k, .rejected msg)) :
    (js.turn k).completion = .fulfilled (str "null") := by
  have htext : (b.globals k).text stringify = .ok (str "null") := by
    subst hb
    simp [Behaviour.globals, Globals.text, Globals.settle, Globals.start]
  rw [Turn.completion, h.result, htext]
  rfl

/-- **Which reports of the loop are right.** -/
theorem faithful_completed_iff (h : Runs stringify js b) :
    Faithful b (completed js 100 0) ↔ ∀ k msg, b = some (k, .rejected msg) → 100 ≤ k := by
  constructor
  · intro hf k msg hb
    by_contra hlt
    have hreport : completed js 100 0 = .fulfilled (str "null") := by
      rw [completed_of_settled h hb (Nat.zero_le k) (by omega), completion_of_rejected h hb]
    have hright := hf.rejected k msg hb (by omega)
    rw [hreport] at hright
    cases hright
  · intro hlate
    refine ⟨?_, ?_⟩
    · intro k msg hb hlt
      have := hlate k msg hb
      omega
    · intro json hjson
      by_contra hnot
      -- a handler that did not fulfil had no turn to settle in
      have hpending : ∀ k s, b = some (k, s) → 0 + 100 ≤ k := by
        intro k s hb
        cases s with
        | fulfilled value => exact absurd ⟨k, value, hb⟩ hnot
        | rejected msg =>
          have := hlate k msg hb
          omega
      obtain ⟨e, he⟩ := completed_of_pending h hpending
      rw [hjson] at he
      cases he

/-- **The reported outcome is the handler's outcome** exactly when the handler does not throw or reject within
`max_turns`. -/
theorem runOne_faithful_iff (Y : Yojson) (env : WorkerEnv) (store : ArtifactStore) (fs : FileSystem)
    (registry : Registry) (invId : InvocationId) (tenant : TenantId) (fn : FunctionName) (q : Qualifier) (event : Str)
    (deadline : Int64) (b : Behaviour V) (hjs : Runs stringify env.js b) (st st' : State) (hwf : st.handles.WF)
    (r : InvocationResult)
    (hrun : runOne Y env store fs registry invId tenant fn q event deadline st = (.ok r, st')) :
    Faithful b r.result ↔ ∀ k msg, b = some (k, .rejected msg) → 100 ≤ k := by
  rw [result_of_runOne hwf hrun]
  exact faithful_completed_iff hjs

end

/-! ### A handler that returns, and one that throws -/

open MirageLambda.Bundle (sampleTenant sampleFunction sampleBundle sampleYojson sampleManifestJson)

/-- The sample is published and `live` is moved to it. -/
def sampleRegistry : Registry :=
  (Registry.run sampleYojson none Registry.crossTenantFiles
    [.publish sampleTenant sampleFunction
        ⟨digestOf sampleBundle, sampleManifestJson.toString, str "quickjs-2026-06-04", []⟩,
     .move sampleTenant sampleFunction ⟨str "live", by decide⟩ (digestOf sampleBundle) none]).1

theorem fetchBundle_sample :
    fetchBundle sampleYojson ⟨str "/objects"⟩ Registry.crossTenantFiles sampleRegistry sampleTenant sampleFunction
      ⟨str "live", by decide⟩ = .ok Bundle.sampleValidated := by
  have hres : sampleRegistry.resolve sampleTenant sampleFunction ⟨str "live", by decide⟩ =
      .ok (digestOf sampleBundle) := Registry.resolve_eq_ok.2 ⟨⟨str "live", by decide⟩, rfl, rfl⟩
  have hget : ArtifactStore.get ⟨str "/objects"⟩ Registry.crossTenantFiles (digestOf sampleBundle) =
      .ok sampleBundle := by
    refine ArtifactStore.get_eq_ok.2 ⟨?_, rfl⟩
    rw [Registry.crossTenantFiles, FileSystem.node_set, if_pos rfl]
  exact fetchBundle_eq_ok.2 ⟨_, _, hres, hget, Bundle.parse_eq_ok.2 ⟨_, _, Bundle.parsed_sampleBundle⟩⟩

/-- A worker whose handler makes no host call and has settled at the first turn. -/
def settledEnv (s : Settlement Str) : WorkerEnv :=
  { quietEnv with
    js := { quietEnv.js with
      turn := fun t => { quietEnv.js.turn t with
        evalInt := fun _ => .ok 1
        evalString := fun _ => (Globals.start.settle s).text .ok } } }

theorem runs_settledEnv (s : Settlement Str) : Runs .ok (settledEnv s).js (some (0, s)) := by
  refine ⟨?_, ?_⟩
  · intro t
    cases s <;> rfl
  · intro t
    rfl

theorem waiting_settledEnv (s : Settlement Str) (t : Nat) : waiting (settledEnv s).js [] t = [] := by
  induction t with
  | zero => rfl
  | succ t ih =>
    rw [waiting, ih]
    rfl

theorem quiet_settledEnv (s : Settlement Str) : (settledEnv s).js.Quiet :=
  ⟨fun _ => rfl, fun _ => rfl, fun _ => ⟨rfl, fun _ => rfl, rfl, rfl, rfl⟩⟩

/-- Nothing is held before the first engine. -/
theorem retains_init (serial : Nat) : State.init.retains serial = false := by
  refine retains_eq_false.2 ⟨fun j s hs => ?_, List.not_mem_nil⟩
  cases hs

def firstId : InvocationId := ⟨str "inv-1", by decide⟩

/-- The invocation of the sample under such a worker. -/
def sampleInvocation (s : Settlement Str) : Outcome Error InvocationResult × State :=
  runOne sampleYojson (settledEnv s) ⟨str "/objects"⟩ Registry.crossTenantFiles sampleRegistry
    firstId sampleTenant sampleFunction ⟨str "live", by decide⟩ [] 5000 .init

/-- The engine of such a worker does its work on the sample. -/
theorem settledEnv_works (s : Settlement Str) (src : Str) :
    ¬ EngineFails sampleYojson (settledEnv s) Bundle.sampleValidated src := by
  rintro (hloads | hentry | ⟨k, _, _, hstuck⟩)
  · exact hloads ⟨fitsEngine_sample.count, fitsEngine_sample.path, fun _ _ => rfl⟩
  · obtain ⟨m, hm, heq⟩ := fitsEngine_sample.entrypoint
    exact hentry m hm heq
  · -- no payload ever waits
    have hnone : waiting (settledEnv s).js [] (0 + k) = [] := waiting_settledEnv s (0 + k)
    rw [show firstCalls (settledEnv s).js Bundle.sampleValidated _ = [] from rfl, hnone] at hstuck
    exact hstuck

theorem sampleInvocation_completes (s : Settlement Str) : ∃ r st', sampleInvocation s = (.ok r, st') :=
  (runOne_completes_iff (i := 0) wf_empty fetchBundle_sample rfl (by decide +kernel) (by decide)
    (settledEnv_works s _)).2 (not_aborts_of_quiet wf_empty (retains_init 0) (quiet_settledEnv s))

theorem runOne_faithful_returning :
    ∃ r st', sampleInvocation (.fulfilled (str "42")) = (.ok r, st') ∧
      Runs .ok (settledEnv (.fulfilled (str "42"))).js (some (0, .fulfilled (str "42"))) ∧
      Faithful (some (0, .fulfilled (str "42"))) r.result := by
  obtain ⟨r, st', hrun⟩ := sampleInvocation_completes (.fulfilled (str "42"))
  refine ⟨r, st', hrun, runs_settledEnv _, ?_⟩
  refine (runOne_faithful_iff _ _ _ _ _ _ _ _ _ _ _ _ (runs_settledEnv _) _ _ wf_empty r hrun).2 ?_
  intro k msg hb
  cases hb

/-- A handler that throws `boom` at once is reported as fulfilled, with the text `null`. -/
theorem throwing_handler_reported_fulfilled :
    ∃ r st', sampleInvocation (.rejected (str "boom")) = (.ok r, st') ∧
      Runs .ok (settledEnv (.rejected (str "boom"))).js (some (0, .rejected (str "boom"))) ∧
      r.result = .fulfilled (str "null") ∧
      ¬ Faithful (V := Str) (some (0, .rejected (str "boom"))) r.result := by
  obtain ⟨r, st', hrun⟩ := sampleInvocation_completes (.rejected (str "boom"))
  have hresult : r.result = .fulfilled (str "null") := by
    rw [result_of_runOne wf_empty hrun, completed_of_settled (runs_settledEnv _) rfl (Nat.zero_le 0) (by decide),
      completion_of_rejected (runs_settledEnv _) rfl]
  refine ⟨r, st', hrun, runs_settledEnv _, hresult, ?_⟩
  intro hf
  have hright := hf.rejected 0 _ rfl (by decide)
  rw [hresult] at hright
  cases hright

end MirageLambda
