import MirageLambda.Control.Outcomes
import MirageLambda.Qjs.Stringify

/-!
# What is reported of a handler's value (worker/runtime_host.ml:36-43, control/worker_pool.ml:61-91)

The value the handler's promise fulfils with is stored in `__result` and read back with
`JSON.stringify(globalThis.__result || null)`. The `|| null` is there for a result that is not set; it also replaces
`false`, `0` and `""`, which are results. And a handler may return while a host call of it waits for an answer: the
engine is then destroyed with a promise in `g_promises`, which is the end of the process. `runOne_value_iff`: `run_one`
reports the JSON text of the handler's value exactly when the value is none of the three and no promise is left.
-/

namespace MirageLambda
open OCaml Qjs

/-- The completion expression on a value that is stored in `__result`. -/
def completionText (fmt : Float64 → Str) (v : JsValue) : Except EvalFailure Str := .ok (stringify fmt v.orNull)

/-- The report at the turn that finds the handler's promise fulfilled. -/
theorem completion_of_fulfilled {fmt : Float64 → Str} (hfmt : NumberText fmt) {js : Script} {k : Nat} {v : JsValue}
    (h : Runs (completionText fmt) js (some (k, .fulfilled v))) :
    (js.turn k).completion = .fulfilled (stringify fmt v.orNull) := by
  have htext : (js.turn k).evalString (str "JSON.stringify(globalThis.__result || null)") =
      .ok (stringify fmt v.orNull) := by
    rw [h.result]
    simp [Behaviour.globals, Globals.text, Globals.settle, completionText]
  rw [Turn.completion, htext, stringResult, cString_eq_self (stringify_ne_zero hfmt v.orNull)]

/-- **Which values are returned unchanged**: the handler's promise fulfils with `v` within `max_turns`, and nothing
goes wrong before `drive` returns. Then `run_one` reports the JSON text of `v` exactly when `v` is not `false`, a zero
or `""`, and the engine has no promise left when it is destroyed. -/
theorem runOne_value_iff (Y : Yojson) (env : WorkerEnv) (store : ArtifactStore) (fs : FileSystem) (registry : Registry)
    (invId : InvocationId) (tenant : TenantId) (fn : FunctionName) (q : Qualifier) (event : Str) (deadline : Int64)
    (fmt : Float64 → Str) (hfmt : NumberText fmt) (v : JsValue) (k : Nat) (hk : k < 100)
    (hjs : Runs (completionText fmt) env.js (some (k, .fulfilled v))) (st : State) (hwf : st.handles.WF)
    (bundle : Bundle.Validated) (hfetch : fetchBundle Y store fs registry tenant fn q = .ok bundle)
    (halloc : env.alloc = .ok ()) (i : Fin tableCap) (hfree : st.handles.firstFree = some i)
    (hgen : (st.handles.generation i).toNat < 0x7fff)
    (hworks : ¬ EngineFails Y env bundle (callSrc bundle.manifest.entrypoint event invId deadline)) :
    (∃ r st', runOne Y env store fs registry invId tenant fn q event deadline st = (.ok r, st') ∧
      r.result = .fulfilled (stringify fmt v)) ↔
    ¬ v.Dropped ∧ ¬ Aborts Y env store fs registry invId tenant fn q event deadline st := by
  have hresult : ∀ r st', runOne Y env store fs registry invId tenant fn q event deadline st = (.ok r, st') →
      r.result = .fulfilled (stringify fmt v.orNull) := by
    intro r st' hrun
    rw [result_of_runOne hwf hrun, completed_of_settled hjs rfl (Nat.zero_le k) (by omega),
      completion_of_fulfilled hfmt hjs]
  rw [← runOne_completes_iff hwf hfetch halloc hfree hgen hworks]
  constructor
  · rintro ⟨r, st', hrun, hr⟩
    rw [hresult r st' hrun, Completion.fulfilled.injEq] at hr
    exact ⟨(orNull_text_iff hfmt v).1 hr, r, st', hrun⟩
  · rintro ⟨hkept, r, st', hrun⟩
    refine ⟨r, st', hrun, ?_⟩
    rw [hresult r st' hrun, (orNull_text_iff hfmt v).2 hkept]

/-! ### A handler that returns 42, and one that returns false -/

open MirageLambda.Bundle (sampleTenant sampleFunction sampleYojson)

/-- JavaScript's text of an integral number below `10^21`. -/
def integerText (f : Float64) : Str := intToString f.toInt

theorem numberText_integerText : NumberText integerText := by
  refine ⟨fun f => ?_, fun f hf => ?_⟩
  · have hlegible : ∀ c : UInt8, isDigit c = true ∨ c = chr '-' → legibleByte c = true := forall_byte (by decide +kernel)
    obtain ⟨d, D, hd, hD, -, htext⟩ := intToString_cases f.toInt
    have hdigits : Legible (d :: D) :=
      List.forall_mem_cons.2 ⟨hlegible d (Or.inl hd), fun c hc => hlegible c (Or.inl (hD c hc))⟩
    rcases htext with h | h
    · rw [integerText, h]
      exact hdigits
    · rw [integerText, h]
      exact List.forall_mem_cons.2 ⟨hlegible _ (Or.inr rfl), hdigits⟩
  · simp only [Float64.isZero, Bool.and_eq_true, beq_iff_eq] at hf
    have hratio : f.ratio.1 = 0 := by
      simp only [Float64.ratio, hf.1, hf.2, if_true]
      rw [if_neg (by decide)]
    have hint : f.toInt = 0 := by simp [Float64.toInt, hratio]
    rw [integerText, hint]
    decide

/-- A worker whose handler fulfils with this value at once. -/
def returningEnv (v : JsValue) : WorkerEnv := settledEnv (.fulfilled (stringify integerText v.orNull))

theorem runs_returningEnv (v : JsValue) : Runs (completionText integerText) (returningEnv v).js (some (0, .fulfilled v)) :=
  ⟨fun _ => rfl, fun _ => rfl⟩

/-- The invocation of the sample under such a worker. -/
def returningInvocation (v : JsValue) : Outcome Error InvocationResult × State :=
  sampleInvocation (.fulfilled (stringify integerText v.orNull))

def fortyTwo : Float64 := ⟨0x4045000000000000⟩

theorem runOne_value_fortyTwo :
    ∃ r st', returningInvocation (.number fortyTwo) = (.ok r, st') ∧ r.result = .fulfilled (str "42") := by
  have htext : stringify integerText (.number fortyTwo) = str "42" := by decide +kernel
  rw [← htext]
  refine (runOne_value_iff sampleYojson (returningEnv (.number fortyTwo)) ⟨str "/objects"⟩ Registry.crossTenantFiles
    sampleRegistry firstId sampleTenant sampleFunction ⟨str "live", by decide⟩ [] 5000 integerText
    numberText_integerText (.number fortyTwo) 0 (by decide) (runs_returningEnv _) .init wf_empty Bundle.sampleValidated
    fetchBundle_sample rfl 0 (by decide +kernel) (by decide) (settledEnv_works _ _)).2 ⟨by decide, ?_⟩
  exact not_aborts_of_quiet wf_empty (retains_init 0) (quiet_settledEnv _)

/-- A worker whose handler awaits `host.later(1)`, calls `host.later(7)` and fulfils with this value. -/
def abandoningEnv (v : JsValue) : WorkerEnv :=
  { returningEnv v with
    js := { (returningEnv v).js with
      turn := fun t => { (returningEnv v).js.turn t with
        pump := if t = 0 then [.later 1] else []
        settle := if t = 0 then [.later 7] else [] } } }

/-- The invocation of the sample under such a worker. -/
def abandoningInvocation (v : JsValue) : Outcome Error InvocationResult × State :=
  runOne sampleYojson (abandoningEnv v) ⟨str "/objects"⟩ Registry.crossTenantFiles sampleRegistry firstId sampleTenant
    sampleFunction ⟨str "live", rfl⟩ [] 5000 .init

/-- What `drive` leaves behind then: the result, and the promise of `host.later(7)`. -/
theorem drive_abandoning : ∃ st₂,
    driveEngine sampleYojson (abandoningEnv (.number fortyTwo)) Bundle.sampleValidated 65536 firstId [] 5000 State.first =
      (.ok (.fulfilled (str "42")), st₂) ∧ st₂.freesRuntime 65536 = false := by
  refine ⟨_, Prod.ext ?_ rfl, ?_⟩
  · decide +kernel
  · decide +kernel

/-- A handler that returns `false` is reported with `null`, and one that returns 42 without waiting for its last host call
takes the process with it. -/
theorem runOne_value_false :
    (∃ r st', returningInvocation (.bool false) = (.ok r, st') ∧
      Runs (completionText integerText) (returningEnv (.bool false)).js (some (0, .fulfilled (.bool false))) ∧
      r.result = .fulfilled (str "null") ∧ r.result ≠ .fulfilled (stringify integerText (.bool false))) ∧
    (abandoningInvocation (.number fortyTwo)).1 = .raised .aborted ∧
      Runs (completionText integerText) (abandoningEnv (.number fortyTwo)).js (some (0, .fulfilled (.number fortyTwo))) := by
  obtain ⟨r, st', hrun⟩ : ∃ r st', returningInvocation (.bool false) = (.ok r, st') := sampleInvocation_completes _
  have hjs := runs_returningEnv (.bool false)
  have hcompleted : r.result = completed (returningEnv (.bool false)).js 100 0 := result_of_runOne wf_empty hrun
  have hresult : r.result = .fulfilled (str "null") := by
    rw [hcompleted, completed_of_settled hjs rfl (Nat.zero_le 0) (by decide),
      completion_of_fulfilled numberText_integerText hjs]
    exact congrArg Completion.fulfilled stringify_null
  refine ⟨⟨r, st', hrun, hjs, hresult, ?_⟩, ?_, fun _ => rfl, fun _ => rfl⟩
  · rw [hresult, stringify_false]
    decide
  · obtain ⟨st₂, hdrive, hheld⟩ := drive_abandoning
    have hcreate : Engine.create (abandoningEnv (.number fortyTwo)).alloc .init = (.ok 65536, .first) := by
      simp only [Engine.create, abandoningEnv, returningEnv, settledEnv, quietEnv, create_init]
    rw [abandoningInvocation, runOne_of_create fetchBundle_sample hcreate, runEngine_of_ok hdrive, hheld]
    rfl

end MirageLambda
