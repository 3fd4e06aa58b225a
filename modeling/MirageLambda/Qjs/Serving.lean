import MirageLambda.Qjs.Engine
import MirageLambda.Qjs.HandleRuns

/-!
# An engine in service

From `create` to `destroy` an invocation works on one engine. `Serving t v i ms ps st` says what that
looks like from the outside: the handle table is `t` up to the runtime in slot `i`, the handle `v` names
that runtime, its modules are `ms` and the payloads waiting in its queue are `ps`. One lemma for each call
says that it stays so, with which lists, and when the call raises.
-/

namespace MirageLambda.Qjs
open OCaml

/-! ## The handle table -/

/-- A slot with a runtime in it. -/
def Table.occupied {ρ : Type} (t : Table ρ) (i : Fin tableCap) : Prop := t.table i ≠ none

theorem occupied_modify {ρ : Type} (t : Table ρ) (i : Fin tableCap) (f : ρ → ρ) :
    (t.modify i f).occupied = t.occupied := by
  funext j
  unfold Table.occupied Table.modify
  by_cases hji : j = i
  · subst hji
    simp
  · simp [hji]

theorem modify_modify {ρ : Type} (t : Table ρ) (i : Fin tableCap) (f g : ρ → ρ) :
    (t.modify i f).modify i g = t.modify i (g ∘ f) := by
  unfold Table.modify
  simp only [Function.update_self, Function.update_idem, Option.map_map, Function.comp_def]

theorem modify_id {ρ : Type} (t : Table ρ) (i : Fin tableCap) : t.modify i id = t := by
  refine Table.ext (funext fun j => ?_) rfl
  by_cases hji : j = i
  · subst hji
    cases h : t.table j <;> simp [Table.modify, h]
  · simp [Table.modify]

/-- Writing to the runtime a handle names. -/
theorem tableGet_modify {ρ : Type} {t : Table ρ} {v : Int} {i : Fin tableCap} {q : ρ}
    (h : tableGet t v = some (i, q)) (f : ρ → ρ) : tableGet (t.modify i f) v = some (i, f q) := by
  by_cases hlt : (intVal v).toNat % 2 ^ 16 < tableCap
  · rw [tableGet_of_lt t hlt] at h
    rw [tableGet_of_lt _ hlt]
    cases hc : t.table ⟨_, hlt⟩ with
    | none =>
      simp only [hc] at h
      cases h
    | some c =>
      simp only [hc] at h
      split at h
      · cases h
      · rename_i hgen
        cases h
        simp only [Table.modify, Function.update_self, hc, Option.map_some, if_neg hgen]
  · rw [tableGet_of_not_lt t hlt] at h
    cases h

theorem tableGet_pushed {st : State} {v : Int} {i : Fin tableCap} {q : Runtime}
    (hget : tableGet st.handles v = some (i, q)) (op payload : Str) :
    tableGet (st.pushed i q op payload).handles v =
      some (i, { q with requests := (q.requests.push op payload).2 }) :=
  tableGet_modify hget fun q' => { q' with requests := (q.requests.push op payload).2 }

/-! ## The queue -/

/-- The payload a call puts in the queue, when there is room. -/
def HostCall.payload (call : HostCall) : Option Str :=
  match call.request with
  | .ok (_, payload) => some payload
  | .error _ => none

/-- The payloads waiting after some calls: the queue has 256 places. -/
def enqueue (ps : List Str) (calls : List HostCall) : List Str :=
  (ps ++ calls.filterMap HostCall.payload).take 256

theorem take_append_take {α : Type} (n : Nat) (l m : List α) : (l.take n ++ m).take n = (l ++ m).take n := by
  by_cases h : l.length ≤ n
  · rw [List.take_of_length_le h]
  · rw [List.take_append_of_le_length (by rw [List.length_take]; omega), List.take_append_of_le_length (by omega),
      List.take_take, min_self]

theorem enqueue_append (ps : List Str) (a b : List HostCall) : enqueue (enqueue ps a) b = enqueue ps (a ++ b) := by
  unfold enqueue
  rw [take_append_take, List.filterMap_append, List.append_assoc]

theorem enqueue_nil {ps : List Str} (h : ps.length ≤ 256) : enqueue ps [] = ps := by
  simp [enqueue, h]

/-! ## Serving -/

/-- What `queue` holds, as payloads. -/
def HostQueue.payloads (q : HostQueue) : List Str := q.contents.map Request.payload

structure Serving (t : Table Runtime) (v : Int) (i : Fin tableCap) (ms : List (Str × Str)) (ps : List Str)
    (st : State) : Prop where
  frame : ∃ f, st.handles = t.modify i f
  runtime : ∃ q, tableGet st.handles v = some (i, q) ∧ q.requests.WF ∧ q.modules = ms ∧ q.requests.payloads = ps

section
variable {t : Table Runtime} {v : Int} {i : Fin tableCap} {ms : List (Str × Str)} {ps : List Str} {st : State}

theorem Serving.length_le (h : Serving t v i ms ps st) : ps.length ≤ 256 := by
  obtain ⟨q, _, hwf, _, rfl⟩ := h.runtime
  rw [HostQueue.payloads, List.length_map, HostQueue.contents, RingBuffer.length_contents]
  exact hwf.count_le

theorem Serving.occupied (h : Serving t v i ms ps st) : st.handles.occupied = t.occupied := by
  obtain ⟨f, hf⟩ := h.frame
  rw [hf, occupied_modify]

theorem Serving.wf (h : Serving t v i ms ps st) (hwf : t.WF) : st.handles.WF := by
  obtain ⟨f, hf⟩ := h.frame
  rw [hf]
  exact wf_modify hwf i f

/-- Only the handle table matters. -/
theorem Serving.congr (h : Serving t v i ms ps st) {st' : State} (heq : st'.handles = st.handles) :
    Serving t v i ms ps st' := by
  refine ⟨?_, ?_⟩
  · rw [heq]; exact h.frame
  · rw [heq]; exact h.runtime

/-- A write to the engine's runtime. -/
theorem Serving.write (h : Serving t v i ms ps st) {st' : State} {g : Runtime → Runtime} {ms' : List (Str × Str)}
    {ps' : List Str} (hst : st'.handles = st.handles.modify i g)
    (hg : ∀ q, tableGet st.handles v = some (i, q) → q.requests.WF → q.modules = ms → q.requests.payloads = ps →
      (g q).requests.WF ∧ (g q).modules = ms' ∧ (g q).requests.payloads = ps') :
    Serving t v i ms' ps' st' := by
  obtain ⟨f, hf⟩ := h.frame
  obtain ⟨q, hget, hwf, hms, hps⟩ := h.runtime
  obtain ⟨hwf', hms', hps'⟩ := hg q hget hwf hms hps
  refine ⟨⟨g ∘ f, by rw [hst, hf, modify_modify]⟩, g q, ?_, hwf', hms', hps'⟩
  rw [hst]
  exact tableGet_modify hget g

/-- A host call that reaches the queue leaves its payload there if there is room; the promise table does not
matter. -/
theorem Serving.hostCall (h : Serving t v i ms ps st) (call : HostCall) :
    Serving t v i ms (enqueue ps [call]) (act st (.hostCall v call)) := by
  obtain ⟨q, hget, hwf, hms, hps⟩ := h.runtime
  have hlen := h.length_le
  simp only [act, hget]
  cases hreq : call.request with
  | error msg =>
    have hsame : enqueue ps [call] = ps := by
      simp [enqueue, HostCall.payload, hreq, hlen]
    rw [hsame, Qjs.hostCall, hreq]
    exact h
  | ok r =>
    obtain ⟨op, payload⟩ := r
    have hhandles : (Qjs.hostCall st v i q call).2.handles =
        st.handles.modify i fun q' => { q' with requests := (q.requests.push op payload).2 } := by
      unfold Qjs.hostCall
      rw [hreq]
      simp only []
      split
      · rfl
      · split <;> rfl
    refine h.write hhandles ?_
    intro q' hget' _ hms' _
    rw [hget] at hget'
    cases hget'
    refine ⟨hwf.push op payload, hms', ?_⟩
    have hcontents := HostQueue.contents_push hwf op payload
    have hcount : q.requests.contents.length = ps.length := by
      rw [← hps, HostQueue.payloads, List.length_map]
    have hone : [call].filterMap HostCall.payload = [payload] := by
      simp [HostCall.payload, hreq]
    unfold HostQueue.payloads at hps ⊢
    simp only [hcontents, enqueue, hone]
    by_cases hroom : q.requests.contents.length < 256
    · have hroom' : (ps ++ [payload]).length ≤ 256 := by
        simp only [List.length_append, List.length_singleton]
        omega
      rw [if_pos hroom, List.map_append, hps, List.take_of_length_le hroom']
      rfl
    · rw [if_neg hroom, hps, List.take_append_of_le_length (by omega), List.take_of_length_le hlen]

/-- JavaScript running in the engine. -/
theorem Serving.runJs (h : Serving t v i ms ps st) (calls : List HostCall) :
    Serving t v i ms (enqueue ps calls) (runJs v calls st) := by
  induction calls generalizing ps st with
  | nil =>
    rw [enqueue_nil h.length_le]
    exact h
  | cons call calls ih =>
    have hstep := ih (h.hostCall call)
    rw [enqueue_append] at hstep
    exact hstep

/-! ## The calls -/

variable {ε : Type}

theorem Serving.installHost (h : Serving t v i ms ps st) :
    Engine.installHost (ε := ε) v st = (.ok (), st) := by
  obtain ⟨q, hget, _⟩ := h.runtime
  simp only [Engine.installHost, mlqjsInstallHost, hget]

/-- A module that the map of 256 entries with paths under 512 bytes can take. -/
def Loadable (ms : List (Str × Str)) (path : Str) (malloc : Bool) : Prop :=
  ms.length < 256 ∧ path.length < 512 ∧ malloc = true

theorem Serving.setModule (h : Serving t v i ms ps st) (path : ModulePath) (src : Str) (malloc : Bool) :
    (Loadable ms path.toStr malloc ∧ ∃ st', Engine.setModule (ε := ε) v path src malloc st = (.ok (), st') ∧
      Serving t v i (ms ++ [(path.toStr, src)]) ps st') ∨
    (¬ Loadable ms path.toStr malloc ∧ ∃ x, Engine.setModule (ε := ε) v path src malloc st = (.raised x, st)) := by
  obtain ⟨q, hget, _, hms, _⟩ := h.runtime
  unfold Loadable
  simp only [Engine.setModule, mlqjsSetModule, hget, hms]
  by_cases hcount : ms.length ≥ 256
  · exact Or.inr ⟨by omega, _, if_pos hcount⟩
  rw [if_neg hcount]
  by_cases hpath : path.toStr.length ≥ 512
  · exact Or.inr ⟨by omega, _, if_pos hpath⟩
  rw [if_neg hpath]
  cases malloc with
  | false => exact Or.inr ⟨by simp, _, rfl⟩
  | true =>
    refine Or.inl ⟨⟨by omega, by omega, rfl⟩, _, rfl, ?_⟩
    refine h.write (g := fun q => { q with modules := q.modules ++ [(path.toStr, src)] }) rfl ?_
    intro q' _ hwf' hms' hps'
    exact ⟨hwf', by simp only [hms'], hps'⟩

/-- The entrypoint is found among the modules, compared as C strings. -/
def hasModule (ms : List (Str × Str)) (path : Str) : Bool := ms.any fun m => cString m.1 == cString path

theorem Serving.evalModule (h : Serving t v i ms ps st) (path : ModulePath) (js : Script) :
    (hasModule ms path.toStr = true ∧ ∃ st', Engine.evalModule (ε := ε) v path js st = (.ok (), st') ∧
      Serving t v i ms (enqueue ps (js.load path.toStr)) st') ∨
    (hasModule ms path.toStr = false ∧ ∃ x, Engine.evalModule (ε := ε) v path js st = (.raised x, st)) := by
  obtain ⟨q, hget, _, hms, _⟩ := h.runtime
  have hmod : mlqjsEvalModule (ε := ε) st v path.toStr = if hasModule ms path.toStr then .ok ()
      else .raised (.failure (str "mlqjs_eval_module: entrypoint not found")) := by
    simp only [mlqjsEvalModule, hget, hms]
    rfl
  have hget : Prog.get (ε := ε) st = (.ok st, st) := rfl
  cases hhas : hasModule ms path.toStr with
  | true =>
    rw [hhas, if_pos rfl] at hmod
    refine Or.inl ⟨rfl, _, ?_, h.runJs (js.load path.toStr)⟩
    have hlift : Prog.lift (mlqjsEvalModule (ε := ε) st v path.toStr) st = (.ok (), st) := by
      rw [Prog.lift_apply, hmod]
    rw [Engine.evalModule, Prog.bind_of_ok hget, Prog.bind_of_ok hlift]
    rfl
  | false =>
    rw [hhas, if_neg Bool.false_ne_true] at hmod
    have hlift : Prog.lift (mlqjsEvalModule (ε := ε) st v path.toStr) st =
        (.raised (.failure (str "mlqjs_eval_module: entrypoint not found")), st) := by
      rw [Prog.lift_apply, hmod]
    refine Or.inr ⟨rfl, .failure (str "mlqjs_eval_module: entrypoint not found"), ?_⟩
    rw [Engine.evalModule, Prog.bind_of_ok hget, Prog.bind_of_raised hlift]

theorem Serving.eval (h : Serving t v i ms ps st) (src : Str) (js : Script) :
    ∃ st', Engine.eval (ε := ε) v src js st = (.ok (), st') ∧ Serving t v i ms (enqueue ps (js.call src)) st' := by
  obtain ⟨q, hget, _⟩ := h.runtime
  refine ⟨_, ?_, h.runJs (js.call src)⟩
  simp only [Engine.eval, hget]

theorem Serving.pump (h : Serving t v i ms ps st) (calls : List HostCall) :
    ∃ st', Engine.pump (ε := ε) v calls st = (.ok (), st') ∧ Serving t v i ms (enqueue ps calls) st' := by
  obtain ⟨q, hget, _⟩ := h.runtime
  refine ⟨_, ?_, h.runJs calls⟩
  simp only [Engine.pump, hget]

/-- The expression evaluates to `n`, or `eval_int` reports an error. -/
theorem Serving.evalInt (h : Serving t v i ms ps st) (src : Str) (turn : Turn) :
    ∃ r st', Engine.evalInt (ε := ε) v src turn st = (.ok r, st') ∧
      (∀ n, r = .ok n ↔ turn.evalInt src = .ok n) ∧ Serving t v i ms (enqueue ps turn.check) st' := by
  obtain ⟨q, hget, _⟩ := h.runtime
  have hrun := h.runJs turn.check
  simp only [Engine.evalInt, hget]
  split <;> rename_i hr <;> rw [hr] <;> exact ⟨_, _, rfl, fun m => by simp, hrun⟩

/-- What `eval_string` makes of an evaluation. -/
def stringResult : Except EvalFailure Str → Except QjsError Str
  | .ok s => .ok (cString s)
  | .error .threw => .error (.engine (str "mlqjs_eval_string: eval threw"))
  | .error .notConvertible => .error (.engine (str "mlqjs_eval_string: not a string-convertible"))

theorem Serving.evalString (h : Serving t v i ms ps st) (src : Str) (turn : Turn) :
    ∃ st', Engine.evalString (ε := ε) v src turn st = (.ok (stringResult (turn.evalString src)), st') ∧
      Serving t v i ms (enqueue ps turn.finish) st' := by
  obtain ⟨q, hget, _⟩ := h.runtime
  have hrun := h.runJs turn.finish
  simp only [Engine.evalString, hget]
  split <;> rename_i hr <;> rw [hr] <;> exact ⟨_, rfl, hrun⟩

/-- What the broker sees of a payload. -/
def received (payload : Str) : Str := (Engine.boundPayload payload).bytes

/-- Draining returns what waits, in order, and empties the queue. -/
theorem Serving.takeHostRequests (h : Serving t v i ms ps st) :
    ∃ reqs st', Engine.takeHostRequests (ε := ε) v st = (.ok reqs, st') ∧
      (reqs.map fun r => r.payload.bytes) = ps.map received ∧ Serving t v i ms [] st' := by
  obtain ⟨q, hget, hwf, _, hps⟩ := h.runtime
  obtain ⟨hall, hempty, hwf'⟩ := HostQueue.takeAll_eq hwf
  let st' : State :=
    { st with handles := st.handles.modify i fun q' => { q' with requests := q.requests.takeAll.2 } }
  have htake : mlqjsTakeRequests (ε := ε) st v = (.ok q.requests.takeAll.1, st') := by
    simp only [mlqjsTakeRequests, hget, st']
  refine ⟨_, st', Prog.bind_of_ok htake, ?_, ?_⟩
  · rw [List.map_map, ← hps, HostQueue.payloads, List.map_map, hall]
    rfl
  · refine h.write (g := fun q' => { q' with requests := q.requests.takeAll.2 }) rfl ?_
    intro q' _ _ hms' _
    exact ⟨hwf', hms', by simp only [HostQueue.payloads, hempty, List.map_nil]⟩

theorem Serving.resolve (h : Serving t v i ms ps st) (id : UInt64) (json : Str) (calls : List HostCall) :
    ∃ st', Engine.resolve (ε := ε) v id json calls st = (.ok (), st') ∧ Serving t v i ms (enqueue ps calls) st' := by
  obtain ⟨q, hget, _⟩ := h.runtime
  have hrun := h.runJs calls
  simp only [Engine.resolve, hget]
  split
  · exact ⟨_, rfl, hrun⟩
  · exact ⟨_, rfl, hrun.congr rfl⟩

/-- `destroy` frees the slot and no other. -/
theorem Serving.destroy (h : Serving t v i ms ps st) (j : Fin tableCap) :
    (Qjs.destroy (ε := Empty) st v).2.handles.occupied j ↔ j ≠ i ∧ t.occupied j := by
  obtain ⟨q, hget, _⟩ := h.runtime
  have hocc := h.occupied
  simp only [Qjs.destroy, mlqjsDestroy, hget]
  by_cases hji : j = i
  · subst hji
    simp [Table.occupied]
  · rw [← hocc]
    simp [Table.occupied, hji]

end

/-! ## The start -/

/-- A new runtime. -/
def Runtime.fresh (serial : Nat) : Runtime := { serial, requests := .init, modules := [] }

/-- `create` returns an error, or installs a runtime in the first free slot. -/
theorem Engine.create_cases {st : State} (hwf : st.handles.WF) (alloc : Except AllocFailure Unit) :
    ((alloc ≠ .ok () ∨ st.handles.firstFree = none) ∧ ∃ msg,
      Engine.create alloc st = (.error (.engine msg), { st with nextSerial := st.nextSerial + 1 })) ∨
    (alloc = .ok () ∧ ∃ i st', st.handles.firstFree = some i ∧
      Engine.create alloc st = (.ok (st.handles.handleAt i), st') ∧
      st'.handles = st.handles.install i (.fresh st.nextSerial)) := by
  cases alloc with
  | error f => exact Or.inl ⟨Or.inl nofun, f.message, rfl⟩
  | ok u =>
    cases hfree : st.handles.firstFree with
    | none =>
      refine Or.inl ⟨Or.inr rfl, str "mlqjs_create: handle table full", ?_⟩
      simp only [Engine.create, Qjs.create, Except.map, mlqjsCreate_of_full hfree]
    | some i =>
      let st' : State :=
        { st with handles := st.handles.install i (.fresh st.nextSerial), nextSerial := st.nextSerial + 1 }
      refine Or.inr ⟨rfl, i, st', rfl, ?_, rfl⟩
      simp only [Engine.create, Qjs.create, Except.map, mlqjsCreate_of_free hwf hfree]
      rfl

/-- The handle of a new runtime resolves to it, unless the slot has reached the last generation. -/
theorem tableGet_install {t : Table Runtime} (hwf : t.WF) {i : Fin tableCap} (hi : t.table i = none)
    (hgen : (t.generation i).toNat < 0x7fff) (q : Runtime) :
    tableGet (t.install i q) (t.handleAt i) = some (i, q) := by
  have hkey := keyOf_handleAt hwf hi
  rw [if_pos hgen] at hkey
  rw [tableGet_eq_some (hwf.install hi _)]
  refine ⟨_, hkey, ?_⟩
  rw [abs_install hwf hi]
  exact SlotTable.get_put t.abs i _

/-- … and serves. -/
theorem serving_install {t : Table Runtime} (hwf : t.WF) {i : Fin tableCap} (hi : t.table i = none)
    (hgen : (t.generation i).toNat < 0x7fff) (serial : Nat) {st : State}
    (hst : st.handles = t.install i (.fresh serial)) :
    Serving (t.install i (.fresh serial)) (t.handleAt i) i [] [] st := by
  refine ⟨⟨id, by rw [hst, modify_id]⟩, .fresh serial, ?_, HostQueue.wf_init, rfl, rfl⟩
  rw [hst]
  exact tableGet_install hwf hi hgen _

theorem tableGet_install_stale {t : Table Runtime} (hwf : t.WF) {i : Fin tableCap} (hi : t.table i = none)
    (hgen : ¬ (t.generation i).toNat < 0x7fff) (q : Runtime) : tableGet (t.install i q) (t.handleAt i) = none := by
  have hkey := keyOf_handleAt hwf hi
  rw [if_neg hgen] at hkey
  exact tableGet_eq_none_of_keyOf (hwf.install hi q) hkey

theorem occupied_install {t : Table Runtime} (i : Fin tableCap) (q : Runtime) (j : Fin tableCap) :
    (t.install i q).occupied j ↔ j = i ∨ t.occupied j := by
  unfold Table.occupied Table.install
  by_cases hji : j = i
  · subst hji
    simp
  · simp [hji]

/-- The state once the first engine has been created. -/
def State.first : State := (create (ε := Empty) .init (.ok ())).2

theorem State.first_eq :
    State.first = { State.init with handles := Table.empty.install 0 (.fresh 0), nextSerial := 1 } := by
  have hfree : (Table.empty : Table Runtime).firstFree = some 0 := by decide +kernel
  simp only [State.first, create, State.init, Except.map, mlqjsCreate_of_free wf_empty hfree]
  rfl

/-- The first handle is 65536: slot 0, generation 1. -/
theorem create_init {ε : Type} : create (ε := ε) .init (.ok ()) = (.ok 65536, .first) := by
  have hfree : (Table.empty : Table Runtime).firstFree = some 0 := by decide +kernel
  have hhandle : (Table.empty : Table Runtime).handleAt 0 = 65536 := by decide +kernel
  simp only [State.first, create, State.init, Except.map, mlqjsCreate_of_free wf_empty hfree, hhandle]

theorem tableGet_first : tableGet State.first.handles 65536 = some (0, .fresh 0) := by
  have hfree : (Table.empty : Table Runtime).firstFree = some 0 := by decide +kernel
  have hhandle : (Table.empty : Table Runtime).handleAt 0 = 65536 := by decide +kernel
  rw [State.first_eq, ← hhandle]
  exact tableGet_install wf_empty (firstFree_eq_some hfree) (by decide) (.fresh 0)

end MirageLambda.Qjs
