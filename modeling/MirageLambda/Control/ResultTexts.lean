import MirageLambda.Control.Results
import MirageLambda.Qjs.JsonRoundtrip

/-!
# What a client reads in a result (worker/runtime_host.ml:36-43, control/worker_pool.ml:61-91)

`run_one` reports a text. Whoever reads it as JSON finds what JSON keeps of the handler's value, `|| null` applied:
`handler_value_reads_back`.
-/

namespace MirageLambda
open OCaml Qjs

/-- Which values survive `|| null` and JSON. -/
theorem kept_orNull_eq_iff {P : Float64 → Prop} {v : JsValue} (h : v.Sound P) :
    v.orNull.kept = v ↔ ¬ v.Dropped ∧ v.Sound HasText := by
  by_cases htrue : v.toBool = true
  · have hkept : ¬ v.Dropped := by
      cases v with
      | bool b =>
        rintro rfl
        exact Bool.false_ne_true htrue
      | number f =>
        intro hzero
        change f.isZero = true at hzero
        rw [JsValue.toBool, hzero, Bool.or_true] at htrue
        exact Bool.false_ne_true htrue
      | string s =>
        rintro rfl
        exact Bool.false_ne_true htrue
      | null => exact id
      | array xs => exact id
      | object ms => exact id
    rw [JsValue.orNull, if_pos htrue, and_iff_right hkept]
    exact kept_eq_iff v h
  · rw [JsValue.orNull, if_neg htrue]
    cases v with
    | null => exact iff_of_true rfl ⟨id, trivial⟩
    | bool b =>
      refine iff_of_false (by simp [JsValue.kept]) fun h => h.1 ?_
      exact Bool.eq_false_iff.2 htrue
    | number f =>
      refine iff_of_false (by simp [JsValue.kept]) fun h => ?_
      obtain ⟨hzero, hfinite, -⟩ := h
      rw [JsValue.toBool, Bool.not_eq_true, Bool.not_eq_false', Bool.or_eq_true] at htrue
      rcases htrue with hnan | hz
      · simp only [Float64.isNaN, Bool.and_eq_true, beq_iff_eq] at hnan
        simp [Float64.isFinite, hnan.1] at hfinite
      · exact hzero hz
    | string s =>
      refine iff_of_false (by simp [JsValue.kept]) fun h => h.1 ?_
      have hempty : s = [] := by simpa [JsValue.toBool] using htrue
      exact hempty
    | array xs => exact absurd rfl htrue
    | object ms => exact absurd rfl htrue

theorem sound_orNull {P : Float64 → Prop} {v : JsValue} (h : v.Sound P) : v.orNull.Sound P := by
  unfold JsValue.orNull
  split
  · exact h
  · trivial

/-- **What comes of a handler's value.** The handler's promise fulfils with `v` within `max_turns`, nothing goes wrong
before `drive` returns, and no promise of the engine is left then. The text that `run_one` reports is read as `v || null`
without what JSON has no text for; it is read as `v` itself exactly when `v` is not `false`, a zero or `""` and JSON has
all of its numbers. -/
theorem handler_value_reads_back (Y : Yojson) (env : WorkerEnv) (store : ArtifactStore) (fs : FileSystem)
    (registry : Registry) (invId : InvocationId) (tenant : TenantId) (fn : FunctionName) (q : Qualifier) (event : Str)
    (deadline : Int64) (fmt : Float64 → Str) (atod : Str → Float64) (hfmt : NumberText fmt) (v : JsValue)
    (hv : v.Sound (Reads fmt atod)) (k : Nat) (hk : k < 100)
    (hjs : Runs (completionText fmt) env.js (some (k, .fulfilled v))) (st : State) (hwf : st.handles.WF)
    (bundle : Bundle.Validated) (hfetch : fetchBundle Y store fs registry tenant fn q = .ok bundle)
    (halloc : env.alloc = .ok ()) (i : Fin tableCap) (hfree : st.handles.firstFree = some i)
    (hgen : (st.handles.generation i).toNat < 0x7fff)
    (hworks : ¬ EngineFails Y env bundle (callSrc bundle.manifest.entrypoint event invId deadline))
    (hreturns : ¬ Aborts Y env store fs registry invId tenant fn q event deadline st) :
    ∃ r st' text, runOne Y env store fs registry invId tenant fn q event deadline st = (.ok r, st') ∧
      r.result = .fulfilled text ∧ parseJSON atod text = some v.orNull.kept ∧
      (parseJSON atod text = some v ↔ ¬ v.Dropped ∧ v.Sound HasText) := by
  obtain ⟨r, st', hrun⟩ := (runOne_completes_iff hwf hfetch halloc hfree hgen hworks).2 hreturns
  have hresult : r.result = .fulfilled (stringify fmt v.orNull) := by
    rw [result_of_runOne hwf hrun, completed_of_settled hjs rfl (Nat.zero_le k) (by omega),
      completion_of_fulfilled hfmt hjs]
  have hread : parseJSON atod (stringify fmt v.orNull) = some v.orNull.kept := parseJSON_stringify (sound_orNull hv)
  refine ⟨r, st', _, hrun, hresult, hread, ?_⟩
  rw [hread, Option.some.injEq]
  exact kept_orNull_eq_iff hv

/-! ### A handler that returns 42 -/

open MirageLambda.Bundle (sampleTenant sampleFunction sampleYojson)

theorem isNumber_fortyTwo : IsNumber (str "42") :=
  ⟨[], chr '4', str "2", [], [], rfl, Or.inl rfl, by unfold Digits; decide +kernel, by decide, Or.inl rfl, Or.inl rfl⟩

/-- The reader for the text of 42. -/
def fortyTwoAtod (s : Str) : Float64 := if s = str "42" then fortyTwo else ⟨0⟩

theorem handler_value_reads_back_fortyTwo :
    ∃ r st' text, returningInvocation (.number fortyTwo) = (.ok r, st') ∧ r.result = .fulfilled text ∧
      parseJSON fortyTwoAtod text = some (.number fortyTwo) := by
  have htext : integerText fortyTwo = str "42" := by decide +kernel
  have hreads : Reads integerText fortyTwoAtod fortyTwo := by
    intro _
    rw [htext]
    exact ⟨isNumber_fortyTwo, by decide⟩
  obtain ⟨r, st', text, hrun, hresult, -, hiff⟩ := handler_value_reads_back sampleYojson (returningEnv (.number fortyTwo))
    ⟨str "/objects"⟩ Registry.crossTenantFiles sampleRegistry firstId sampleTenant sampleFunction ⟨str "live", by decide⟩ []
    5000 integerText fortyTwoAtod numberText_integerText (.number fortyTwo) hreads 0 (by decide) (runs_returningEnv _) .init
    wf_empty Bundle.sampleValidated fetchBundle_sample rfl 0 (by decide +kernel) (by decide) (settledEnv_works _ _)
    (not_aborts_of_quiet wf_empty (retains_init 0) (quiet_settledEnv _))
  exact ⟨r, st', text, hrun, hresult, hiff.2 ⟨by decide, by decide, by decide⟩⟩

end MirageLambda
