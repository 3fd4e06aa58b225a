import MirageLambda.Lib.Run
import MirageLambda.Qjs.Stubs

/-!
# Which promise a resolve settles

Requests are numbered by the engine that makes them, promises are kept in one array for all engines
and found by the number alone. `resolve_settles_own` gives the runs in which that goes well: every
host call that gets a promise must get a number that no promise in the array carries and that no other
live engine was given before. `resolve_settles_other_engine` is what happens otherwise: two engines,
one call each.

The invariant `Inv` relates `g_promises` to the calls made so far. Engines enter it through `view`, the
handle table with only the serial number of each runtime.
-/

namespace MirageLambda.Qjs
open OCaml

/-! ## Engines -/

/-- The handle table, seen as engine numbers. -/
def State.view (st : State) : SlotTable (Fin tableCap) Nat :=
  { cell := fun i => (st.handles.abs.cell i).map Runtime.serial, gen := st.handles.abs.gen }

theorem get_view (st : State) (k : Fin tableCap × Nat) :
    st.view.get k = (st.handles.abs.get k).map Runtime.serial := by
  unfold SlotTable.get State.view
  split <;> rfl

/-- `table_get` in terms of engine numbers. -/
theorem tableGet_view {st : State} (hwf : st.handles.WF) {v : Int} {i : Fin tableCap} {q : Runtime}
    (h : tableGet st.handles v = some (i, q)) :
    ∃ g, keyOf v = some (i, g) ∧ st.view.get (i, g) = some q.serial := by
  obtain ⟨g, hk, hget⟩ := (tableGet_eq_some hwf).1 h
  exact ⟨g, hk, by rw [get_view, hget]; rfl⟩

theorem tableGet_of_view {st : State} (hwf : st.handles.WF) {v : Int} {k : Fin tableCap × Nat} {s : Nat}
    (hk : keyOf v = some k) (hget : st.view.get k = some s) :
    ∃ q, tableGet st.handles v = some (k.1, q) ∧ q.serial = s := by
  rw [get_view, Option.map_eq_some_iff] at hget
  obtain ⟨q, hq, rfl⟩ := hget
  exact ⟨q, (tableGet_eq_some hwf).2 ⟨k.2, hk, hq⟩, rfl⟩

theorem wf_modify {ρ : Type} {t : Table ρ} (hwf : t.WF) (i : Fin tableCap) (f : ρ → ρ) : (t.modify i f).WF := by
  refine ⟨hwf.gen_le, fun j c hc => ?_, fun j hj => ?_⟩
  · by_cases hji : j = i
    · subst hji
      simp only [Table.modify, Function.update_self, Option.map_eq_some_iff] at hc
      obtain ⟨c', hc', rfl⟩ := hc
      exact hwf.cell_gen j c' hc'
    · simp only [Table.modify, Function.update_of_ne hji] at hc
      exact hwf.cell_gen j c hc
  · have hne := hwf.stuck j hj
    by_cases hji : j = i
    · subst hji
      simpa [Table.modify] using hne
    · simpa [Table.modify, hji] using hne

/-- Writing to a runtime does not change which engine it is. -/
theorem view_modify (st : State) (i : Fin tableCap) {f : Runtime → Runtime} (hf : ∀ q, (f q).serial = q.serial) :
    ({ st with handles := st.handles.modify i f } : State).view = st.view := by
  refine SlotTable.ext (funext fun j => ?_) rfl
  by_cases hji : j = i
  · subst hji
    simp [State.view, Table.abs, Table.modify, Function.comp_def, hf]
  · simp [State.view, Table.abs, Table.modify, hji]

/-- What `create` does to the engines. -/
theorem create_cases {ε : Type} {st : State} (hwf : st.handles.WF) (alloc : Except AllocFailure Unit) :
    ((create (ε := ε) st alloc).2 = { st with nextSerial := st.nextSerial + 1 }) ∨
    ∃ i, st.handles.table i = none ∧ (create (ε := ε) st alloc).2 =
      { st with
        handles := st.handles.install i { serial := st.nextSerial, requests := .init, modules := [] }
        nextSerial := st.nextSerial + 1 } := by
  cases alloc with
  | error f => exact Or.inl rfl
  | ok u =>
    cases hfree : st.handles.firstFree with
    | none =>
      left
      simp only [create, Except.map, mlqjsCreate_of_full hfree]
    | some i =>
      refine Or.inr ⟨i, firstFree_eq_some hfree, ?_⟩
      simp only [create, Except.map, mlqjsCreate_of_free hwf hfree]

theorem view_install {st : State} (hwf : st.handles.WF) {i : Fin tableCap} (hi : st.handles.table i = none)
    (q : Runtime) (n : Nat) :
    ({ st with handles := st.handles.install i q, nextSerial := n } : State).view = st.view.put i q.serial := by
  unfold State.view
  simp only [abs_install hwf hi]
  refine SlotTable.ext (funext fun j => ?_) rfl
  by_cases hji : j = i
  · subst hji
    simp [SlotTable.put]
  · simp [SlotTable.put, hji]

theorem view_destroy (st : State) (v : Int) :
    (destroy (ε := Empty) st v).2.view = match tableGet st.handles v with
      | some (i, _) => st.view.free i
      | none => st.view := by
  have habs := abs_destroy (t := st.handles) v
  cases hget : tableGet st.handles v with
  | none =>
    rw [hget] at habs
    unfold State.view destroy
    simp only [habs]
  | some r =>
    obtain ⟨i, q⟩ := r
    rw [hget] at habs
    unfold State.view destroy
    simp only [habs]
    refine SlotTable.ext (funext fun j => ?_) rfl
    by_cases hji : j = i
    · subst hji
      simp [SlotTable.free]
    · simp [SlotTable.free, hji]

/-! ## The promise table -/

theorem promiseInsert_eq_some {ps ps' : Fin maxPromises → Option PromiseSlot} {s : PromiseSlot}
    (h : promiseInsert ps s = some ps') : ∃ j, ps j = none ∧ ps' = Function.update ps j (some s) := by
  unfold promiseInsert at h
  rw [Option.map_eq_some_iff] at h
  obtain ⟨j, hj, rfl⟩ := h
  have hnone := List.find?_some hj
  exact ⟨j, by simpa using hnone, rfl⟩

theorem promiseFind_eq_some {ps : Fin maxPromises → Option PromiseSlot} {id : UInt64} {j : Fin maxPromises}
    (h : promiseFind ps id = some j) : ∃ s, ps j = some s ∧ s.id = id := by
  have hp := List.find?_some h
  cases hj : ps j with
  | none => simp [hj] at hp
  | some s => exact ⟨s, rfl, by simpa [hj] using hp⟩

/-- A slot in use with this id is found, or one before it. -/
theorem exists_promiseFind {ps : Fin maxPromises → Option PromiseSlot} {id : UInt64} {j : Fin maxPromises}
    {s : PromiseSlot} (hj : ps j = some s) (hid : s.id = id) : ∃ k, promiseFind ps id = some k := by
  have hsome : (promiseFind ps id).isSome := by
    unfold promiseFind
    rw [List.find?_isSome]
    exact ⟨j, List.mem_finRange j, by simp [hj, hid]⟩
  exact Option.isSome_iff_exists.1 hsome

/-- A slot in use after a removal is one of the others. -/
theorem promiseRemove_eq_some {ps : Fin maxPromises → Option PromiseSlot} {j k : Fin maxPromises} {s : PromiseSlot} :
    promiseRemove ps j k = some s ↔ k ≠ j ∧ ps k = some s := by
  by_cases hkj : k = j
  · subst hkj
    simp [promiseRemove]
  · simp [promiseRemove, hkj]

/-- A slot in use after an insertion is the new one or one of the others. -/
theorem update_slot_eq_some {ps : Fin maxPromises → Option PromiseSlot} {j k : Fin maxPromises} {new s : PromiseSlot} :
    Function.update ps j (some new) k = some s ↔ k = j ∧ s = new ∨ k ≠ j ∧ ps k = some s := by
  by_cases hkj : k = j
  · subst hkj
    simp [eq_comm]
  · simp [hkj]

/-! ## What a host call does -/

theorem promiseInsert_eq_none {ps : Fin maxPromises → Option PromiseSlot} {s : PromiseSlot} :
    promiseInsert ps s = none ↔ ∀ j, ps j ≠ none := by
  unfold promiseInsert
  rw [Option.map_eq_none_iff, List.find?_eq_none]
  simp

/-- The runtime a handle names is in its slot. -/
theorem table_of_tableGet {ρ : Type} {t : Table ρ} {v : Int} {i : Fin tableCap} {q : ρ}
    (h : tableGet t v = some (i, q)) : ∃ c, t.table i = some c ∧ c.runtime = q := by
  by_cases hlt : (intVal v).toNat % 2 ^ 16 < tableCap
  · rw [tableGet_of_lt t hlt] at h
    cases hc : t.table ⟨_, hlt⟩ with
    | none =>
      simp only [hc] at h
      cases h
    | some c =>
      simp only [hc] at h
      split at h
      · cases h
      · cases h
        exact ⟨c, hc, rfl⟩
  · rw [tableGet_of_not_lt t hlt] at h
    cases h

/-- Writing back what is there changes nothing. -/
theorem modify_eq_self {ρ : Type} {t : Table ρ} {v : Int} {i : Fin tableCap} {q : ρ} {f : ρ → ρ}
    (h : tableGet t v = some (i, q)) (hf : f q = q) : t.modify i f = t := by
  obtain ⟨c, hc, rfl⟩ := table_of_tableGet h
  refine Table.ext (funext fun j => ?_) rfl
  by_cases hji : j = i
  · subst hji
    simp [Table.modify, hc, hf]
  · simp [Table.modify, hji]

/-- The state once a request has been put in the queue of the engine in slot `i`. -/
def State.pushed (st : State) (i : Fin tableCap) (q : Runtime) (op payload : Str) : State :=
  { st with
    nextPromise := st.nextPromise + 1
    handles := st.handles.modify i fun q' => { q' with requests := (q.requests.push op payload).2 } }

/-- A push gives the next number, or 0 when 256 requests are waiting. -/
theorem push_cases (q : HostQueue) (op payload : Str) :
    (256 ≤ q.ring.count ∧ q.push op payload = (0, q)) ∨
      (q.ring.count < 256 ∧ ∃ q', q.push op payload = (q.nextId, q') ∧ q'.ring.count = q.ring.count + 1 ∧
        q'.nextId = q.nextId + 1) := by
  unfold HostQueue.push RingBuffer.push
  by_cases hfull : q.ring.count ≥ 255 + 1
  · rw [if_pos hfull]
    exact Or.inl ⟨hfull, rfl⟩
  · rw [if_neg hfull]
    exact Or.inr ⟨by omega, _, rfl, rfl, rfl⟩

/-- **The exits of `host.later` and `host.rpc`.** Bad arguments; the queue is full; the request is queued but its
number is 0; the request is queued but the promise table is full; the request is queued and the promise stored. -/
theorem hostCall_cases {st : State} {v : Int} {i : Fin tableCap} {q : Runtime}
    (hget : tableGet st.handles v = some (i, q)) (call : HostCall) :
    (∃ msg, call.request = .error msg ∧ hostCall st v i q call = (.error msg, st)) ∨
    (∃ op payload, call.request = .ok (op, payload) ∧ 256 ≤ q.requests.ring.count ∧
      hostCall st v i q call = (.error call.queueFull, { st with nextPromise := st.nextPromise + 1 })) ∨
    (∃ op payload, call.request = .ok (op, payload) ∧ q.requests.ring.count < 256 ∧ q.requests.nextId = 0 ∧
      hostCall st v i q call = (.error call.queueFull, st.pushed i q op payload)) ∨
    (∃ op payload, call.request = .ok (op, payload) ∧ q.requests.ring.count < 256 ∧ q.requests.nextId ≠ 0 ∧
      (∀ j, st.promises j ≠ none) ∧
      hostCall st v i q call =
        (.error (str "promise table full"), { st.pushed i q op payload with leaked := q.serial :: st.leaked })) ∨
    (∃ op payload j, call.request = .ok (op, payload) ∧ q.requests.ring.count < 256 ∧ q.requests.nextId ≠ 0 ∧
      st.promises j = none ∧ hostCall st v i q call = (.ok st.nextPromise,
        { st.pushed i q op payload with
          promises := Function.update st.promises j (some ⟨q.requests.nextId, ⟨q.serial, st.nextPromise⟩⟩)
          calls := ⟨v, q.serial, st.nextPromise, q.requests.nextId⟩ :: st.calls })) := by
  cases hreq : call.request with
  | error msg => exact Or.inl ⟨msg, rfl, by rw [hostCall, hreq]⟩
  | ok r =>
    obtain ⟨op, payload⟩ := r
    rcases push_cases q.requests op payload with ⟨hfull, hpush⟩ | ⟨hroom, q', hpush, _⟩
    · refine Or.inr (Or.inl ⟨op, payload, rfl, hfull, ?_⟩)
      have hsame : (st.handles.modify i fun q' => { q' with requests := q.requests }) = st.handles :=
        modify_eq_self hget rfl
      rw [hostCall, hreq]
      simp only [hpush, if_true, hsame]
    · have hid : (q.requests.push op payload).1 = q.requests.nextId := by rw [hpush]
      refine Or.inr (Or.inr ?_)
      by_cases hzero : q.requests.nextId = 0
      · refine Or.inl ⟨op, payload, rfl, hroom, hzero, ?_⟩
        rw [hostCall, hreq]
        simp only [hid, hzero, if_true]
        rfl
      · refine Or.inr ?_
        cases hins : promiseInsert st.promises ⟨q.requests.nextId, ⟨q.serial, st.nextPromise⟩⟩ with
        | none =>
          refine Or.inl ⟨op, payload, rfl, hroom, hzero, promiseInsert_eq_none.1 hins, ?_⟩
          rw [hostCall, hreq]
          simp only [hid, hzero, if_false, hins]
          rfl
        | some ps =>
          obtain ⟨j, hj, rfl⟩ := promiseInsert_eq_some hins
          refine Or.inr ⟨op, payload, j, rfl, hroom, hzero, hj, ?_⟩
          rw [hostCall, hreq]
          simp only [hid, hzero, if_false, hins]
          rfl

/-! ## Runs -/

/-- What can happen on the C side, in any order and for any engines. -/
inductive Action where
  | create (alloc : Except AllocFailure Unit)
  | hostCall (v : Int) (call : HostCall)
  | takeRequests (v : Int)
  | resolve (v : Int) (id : UInt64)
  | destroy (v : Int)

/-- What an action does, if the process survives it. -/
def act (st : State) : Action → State
  | .create alloc => (create (ε := Empty) st alloc).2
  | .hostCall v call => match tableGet st.handles v with
    | some (i, q) => (hostCall st v i q call).2
    | none => st
  | .takeRequests v => (mlqjsTakeRequests (ε := Empty) st v).2
  | .resolve v id => (mlqjsResolve (ε := Empty) st v id).2
  | .destroy v => (destroy (ε := Empty) st v).2

/-- The action ends the process. -/
def Action.aborts (st : State) : Action → Bool
  | .destroy v => !st.freesRuntime v
  | _ => false

/-- A run ends with its actions, or before the one that ends the process. -/
def runFrom (st : State) (as : List Action) : State := (Run.survived act Action.aborts st as).foldl act st

def runActions (as : List Action) : State := runFrom .init as

/-- The state of a run is that of the actions the process survived. -/
theorem exists_runFrom_eq (st : State) (as : List Action) : ∃ pre, pre <+: as ∧ runFrom st as = pre.foldl act st :=
  ⟨_, Run.survived_prefix st as, rfl⟩

/-- Where nothing is destroyed, the process survives. -/
theorem runFrom_eq_foldl {as : List Action} (h : ∀ a ∈ as, ∀ v, a ≠ .destroy v) (st : State) :
    runFrom st as = as.foldl act st := by
  have hlives : Run.Along act (fun st a => Action.aborts st a = false) st as := by
    rw [Run.along_iff]
    intro pre a hpre
    cases a with
    | destroy v => exact absurd rfl (h _ (hpre.subset List.mem_concat_self) v)
    | _ => rfl
  rw [runFrom, Run.survived_eq_self hlives]

theorem runActions_concat {as : List Action} {a : Action} (h : ∀ b ∈ as ++ [a], ∀ v, b ≠ .destroy v) :
    runActions (as ++ [a]) = act (runActions as) a := by
  have has : ∀ b ∈ as, ∀ v, b ≠ .destroy v := fun b hb => h b (List.mem_append_left _ hb)
  rw [runActions, runFrom_eq_foldl h, List.foldl_append, List.foldl_cons, List.foldl_nil, runActions,
    runFrom_eq_foldl has]

/-- An engine that has not been destroyed. -/
def Live (st : State) (serial : Nat) : Prop := ∃ i, st.view.cell i = some serial

/-- Which engines live can be seen in the view. -/
theorem live_congr {st st' : State} (hv : st'.view = st.view) {serial : Nat} : Live st' serial ↔ Live st serial := by
  rw [Live, Live, hv]

/-! ## The engines along a run -/

/-- What is true of the engines in every run: their numbers are below the next one and pairwise different. -/
structure Engines (st : State) : Prop where
  wf : st.handles.WF
  serial_lt : ∀ i s, st.view.cell i = some s → s < st.nextSerial
  serial_inj : ∀ i j s, st.view.cell i = some s → st.view.cell j = some s → i = j

/-- What an action does to the engines: nothing, a new one in a free slot, or one less. -/
theorem view_act {st : State} (hwf : st.handles.WF) (a : Action) :
    (act st a).handles.WF ∧
    (((act st a).view = st.view ∧ st.nextSerial ≤ (act st a).nextSerial) ∨
      (∃ i, st.view.cell i = none ∧ (act st a).view = st.view.put i st.nextSerial ∧
        (act st a).nextSerial = st.nextSerial + 1) ∨
      ∃ v i q, a = .destroy v ∧ tableGet st.handles v = some (i, q) ∧ (act st a).view = st.view.free i ∧
        (act st a).nextSerial = st.nextSerial) := by
  cases a with
  | create alloc =>
    rcases create_cases (ε := Empty) hwf alloc with heq | ⟨i, hi, heq⟩
    · rw [act, heq]
      exact ⟨hwf, Or.inl ⟨rfl, Nat.le_succ _⟩⟩
    · have hnone : st.view.cell i = none := by simp [State.view, Table.abs, hi]
      rw [act, heq]
      exact ⟨hwf.install hi _, Or.inr (Or.inl ⟨i, hnone, view_install hwf hi _ _, rfl⟩)⟩
  | hostCall v call =>
    cases hget : tableGet st.handles v with
    | none =>
      have hact : act st (.hostCall v call) = st := by simp only [act, hget]
      rw [hact]
      exact ⟨hwf, Or.inl ⟨rfl, le_refl _⟩⟩
    | some r =>
      obtain ⟨i, q⟩ := r
      have hact : act st (.hostCall v call) = (hostCall st v i q call).2 := by simp only [act, hget]
      have hpushed : ∀ op payload, (st.pushed i q op payload).view = st.view :=
        fun op payload => view_modify st i fun _ => rfl
      have hwf' : ∀ op payload, (st.pushed i q op payload).handles.WF :=
        fun op payload => wf_modify hwf i fun q' => { q' with requests := (q.requests.push op payload).2 }
      rw [hact]
      rcases hostCall_cases hget call with ⟨msg, _, heq⟩ | ⟨op, payload, _, _, heq⟩ | ⟨op, payload, _, _, _, heq⟩ |
        ⟨op, payload, _, _, _, _, heq⟩ | ⟨op, payload, j, _, _, _, _, heq⟩ <;> rw [heq]
      · exact ⟨hwf, Or.inl ⟨rfl, le_refl _⟩⟩
      · exact ⟨hwf, Or.inl ⟨rfl, le_refl _⟩⟩
      · exact ⟨hwf' op payload, Or.inl ⟨hpushed op payload, le_refl _⟩⟩
      · exact ⟨hwf' op payload, Or.inl ⟨hpushed op payload, le_refl _⟩⟩
      · exact ⟨hwf' op payload, Or.inl ⟨hpushed op payload, le_refl _⟩⟩
  | takeRequests v =>
    rw [act, mlqjsTakeRequests]
    split
    · exact ⟨hwf, Or.inl ⟨rfl, le_refl _⟩⟩
    · rename_i i q _
      exact ⟨wf_modify hwf i fun q' => { q' with requests := q.requests.takeAll.2 },
        Or.inl ⟨view_modify st i fun _ => rfl, le_refl _⟩⟩
  | resolve v id =>
    rw [act, mlqjsResolve]
    split
    · exact ⟨hwf, Or.inl ⟨rfl, le_refl _⟩⟩
    · split <;> exact ⟨hwf, Or.inl ⟨rfl, le_refl _⟩⟩
  | destroy v =>
    have hview := view_destroy st v
    refine ⟨hwf.destroy v, ?_⟩
    rw [act]
    cases hget : tableGet st.handles v with
    | none =>
      rw [hget] at hview
      exact Or.inl ⟨hview, le_refl _⟩
    | some r =>
      obtain ⟨i, q⟩ := r
      rw [hget] at hview
      exact Or.inr (Or.inr ⟨v, i, q, rfl, hget, hview, rfl⟩)

theorem Engines.act {st : State} (h : Engines st) (a : Action) : Engines (act st a) := by
  obtain ⟨hwf, ⟨hview, hle⟩ | ⟨i, hnone, hview, hnext⟩ | ⟨v, i, q, _, _, hview, hnext⟩⟩ := view_act h.wf a
  · refine ⟨hwf, ?_, ?_⟩
    · rw [hview]
      exact fun j s hs => Nat.lt_of_lt_of_le (h.serial_lt j s hs) hle
    · rw [hview]
      exact h.serial_inj
  · refine ⟨hwf, ?_, ?_⟩
    · rw [hview, hnext]
      intro j s hs
      rcases SlotTable.cell_put.1 hs with ⟨_, rfl⟩ | ⟨_, hold⟩
      · exact Nat.lt_succ_self _
      · exact Nat.lt_succ_of_lt (h.serial_lt j s hold)
    · rw [hview]
      intro j j' s hs hs'
      rcases SlotTable.cell_put.1 hs with ⟨rfl, rfl⟩ | ⟨_, hold⟩
      · rcases SlotTable.cell_put.1 hs' with ⟨rfl, _⟩ | ⟨_, hold'⟩
        · rfl
        · exact absurd (h.serial_lt j' _ hold') (lt_irrefl _)
      · rcases SlotTable.cell_put.1 hs' with ⟨rfl, rfl⟩ | ⟨_, hold'⟩
        · exact absurd (h.serial_lt j _ hold) (lt_irrefl _)
        · exact h.serial_inj j j' s hold hold'
  · refine ⟨hwf, ?_, ?_⟩
    · rw [hview, hnext]
      exact fun j s hs => h.serial_lt j s (SlotTable.cell_free.1 hs).2
    · rw [hview]
      exact fun j j' s hs hs' => h.serial_inj j j' s (SlotTable.cell_free.1 hs).2 (SlotTable.cell_free.1 hs').2

theorem Engines.init : Engines .init := by
  refine ⟨wf_empty, ?_, ?_⟩ <;> simp [State.init, State.view, Table.abs, Table.empty]

/-- A resolve with the id of a host call settles the promise of that call, as long as its engine is live
and the promise is unsettled, and never one that belongs to another engine. -/
def ResolvesOwn (st : State) : Prop :=
  ∀ c ∈ st.calls, Live st c.owner →
    (c.promise ∉ st.settled →
      (mlqjsResolve (ε := Empty) st c.handle c.id).1 = .ok () ∧
        (mlqjsResolve (ε := Empty) st c.handle c.id).2.settled = c.promise :: st.settled) ∧
    ∀ d ∈ st.calls, d.promise ∉ st.settled →
      d.promise ∈ (mlqjsResolve (ε := Empty) st c.handle c.id).2.settled → d.owner = c.owner

/-- The number the next host call of `q` gets is not carried by any promise in the table, and no other live
engine was given it. -/
def FreshId (st : State) (q : Runtime) : Prop :=
  (∀ j s, st.promises j = some s → s.id ≠ q.requests.nextId) ∧
    ∀ c ∈ st.calls, c.owner ≠ q.serial → Live st c.owner → c.id ≠ q.requests.nextId

/-- The condition on a step: a host call for which there is room in the queue and in the promise table
meets a fresh number. -/
def Allowed (st : State) : Action → Prop
  | .hostCall v call => ∀ i q, tableGet st.handles v = some (i, q) → (∃ r, call.request = .ok r) →
      q.requests.ring.count < 256 → (∃ j, st.promises j = none) → FreshId st q
  | _ => True

/-- Every step of the run meets the condition in the state before it. -/
def AllowedFrom (st : State) : List Action → Prop
  | [] => True
  | a :: as => Allowed st a ∧ AllowedFrom (act st a) as

/-- What relates the promise table to the calls made so far. -/
structure Inv (st : State) : Prop where
  wf : st.handles.WF
  /-- Engine numbers are not reused. -/
  serial_lt : ∀ i s, st.view.cell i = some s → s < st.nextSerial
  serial_inj : ∀ i j s, st.view.cell i = some s → st.view.cell j = some s → i = j
  owner_lt : ∀ c ∈ st.calls, c.owner < st.nextSerial
  /-- Promises are not reused. -/
  promise_lt : ∀ c ∈ st.calls, c.promise < st.nextPromise
  settled_lt : ∀ p ∈ st.settled, p < st.nextPromise
  promise_inj : ∀ c ∈ st.calls, ∀ d ∈ st.calls, c.promise = d.promise → c = d
  /-- A slot in use is that of an unsettled call. -/
  slot_call : ∀ j s, st.promises j = some s → s.resolver.promise ∉ st.settled ∧
    ∃ c ∈ st.calls, c.id = s.id ∧ c.owner = s.resolver.owner ∧ c.promise = s.resolver.promise
  /-- An unsettled call has a slot. -/
  call_slot : ∀ c ∈ st.calls, c.promise ∉ st.settled →
    ∃ j s, st.promises j = some s ∧ s.id = c.id ∧ s.resolver.promise = c.promise
  /-- Slots in use have different ids. -/
  id_inj : ∀ i j s t, st.promises i = some s → st.promises j = some t → s.id = t.id → i = j
  /-- The id of a call of a live engine is used by no other engine's slot. -/
  id_owner : ∀ c ∈ st.calls, Live st c.owner → ∀ j s, st.promises j = some s → s.id = c.id →
    s.resolver.owner = c.owner
  /-- While its engine is live, the handle of a call resolves to it. -/
  handle : ∀ c ∈ st.calls, Live st c.owner → ∃ k, keyOf c.handle = some k ∧ st.view.get k = some c.owner

theorem Inv.init : Inv .init := by
  refine ⟨wf_empty, ?_, ?_, ?_, ?_, ?_, ?_, ?_, ?_, ?_, ?_, ?_⟩ <;>
    simp [State.init, State.view, Table.abs, Table.empty]

theorem Inv.engines {st : State} (h : Inv st) : Engines st := ⟨h.wf, h.serial_lt, h.serial_inj⟩

/-! ## Each action keeps the invariant -/

/-- Actions that leave the promise table and the calls alone: it is enough to look at the engines. -/
theorem Inv.frame {st st' : State} (h : Inv st) (hps : st'.promises = st.promises)
    (hcalls : st'.calls = st.calls) (hsettled : st'.settled = st.settled)
    (hnp : st.nextPromise ≤ st'.nextPromise) (hns : st.nextSerial ≤ st'.nextSerial) (hwf : st'.handles.WF)
    (hlt : ∀ i s, st'.view.cell i = some s → s < st'.nextSerial)
    (hinj : ∀ i j s, st'.view.cell i = some s → st'.view.cell j = some s → i = j)
    (hlive : ∀ c ∈ st.calls, Live st' c.owner → Live st c.owner)
    (hget : ∀ c ∈ st.calls, ∀ k, Live st' c.owner → st.view.get k = some c.owner → st'.view.get k = some c.owner) :
    Inv st' where
  wf := hwf
  serial_lt := hlt
  serial_inj := hinj
  owner_lt c hc := Nat.lt_of_lt_of_le (h.owner_lt c (hcalls ▸ hc)) hns
  promise_lt c hc := Nat.lt_of_lt_of_le (h.promise_lt c (hcalls ▸ hc)) hnp
  settled_lt p hp := Nat.lt_of_lt_of_le (h.settled_lt p (hsettled ▸ hp)) hnp
  promise_inj := by rw [hcalls]; exact h.promise_inj
  slot_call := by rw [hps, hcalls, hsettled]; exact h.slot_call
  call_slot := by rw [hps, hcalls, hsettled]; exact h.call_slot
  id_inj := by rw [hps]; exact h.id_inj
  id_owner := by
    rw [hcalls, hps]
    intro c hc hl
    exact h.id_owner c hc (hlive c hc hl)
  handle := by
    rw [hcalls]
    intro c hc hl
    obtain ⟨k, hk, hg⟩ := h.handle c hc (hlive c hc hl)
    exact ⟨k, hk, hget c hc k hl hg⟩

/-- … in particular those that only write to a runtime. -/
theorem Inv.of_view {st st' : State} (h : Inv st) (hps : st'.promises = st.promises)
    (hcalls : st'.calls = st.calls) (hsettled : st'.settled = st.settled)
    (hnp : st.nextPromise ≤ st'.nextPromise) (hns : st'.nextSerial = st.nextSerial) (hwf : st'.handles.WF)
    (hview : st'.view = st.view) : Inv st' := by
  refine h.frame hps hcalls hsettled hnp (le_of_eq hns.symm) hwf ?_ ?_ (fun c _ => (live_congr hview).1) ?_
  · rw [hview, hns]; exact h.serial_lt
  · rw [hview]; exact h.serial_inj
  · rw [hview]; exact fun _ _ _ _ hg => hg

theorem Inv.create {st : State} (h : Inv st) (alloc : Except AllocFailure Unit) :
    Inv (act st (.create alloc)) := by
  have hengines := h.engines.act (.create alloc)
  rcases create_cases (ε := Empty) h.wf alloc with heq | ⟨i, hi, heq⟩
  · rw [act, heq] at hengines ⊢
    exact h.frame rfl rfl rfl (le_refl _) (Nat.le_succ _) h.wf hengines.serial_lt hengines.serial_inj
      (fun _ _ hl => hl) (fun _ _ _ _ hg => hg)
  · have hview := view_install h.wf hi { serial := st.nextSerial, requests := .init, modules := [] }
      (st.nextSerial + 1)
    have hnone : st.view.cell i = none := by simp [State.view, Table.abs, hi]
    rw [act, heq] at hengines ⊢
    refine h.frame rfl rfl rfl (le_refl _) (Nat.le_succ _) (h.wf.install hi _) hengines.serial_lt
      hengines.serial_inj ?_ ?_
    · -- the new engine has a number that no call mentions
      intro c hc hl
      unfold Live at hl
      rw [hview] at hl
      obtain ⟨j, hj⟩ := hl
      rcases SlotTable.cell_put.1 hj with ⟨_, hnew⟩ | ⟨_, hold⟩
      · exact absurd (h.owner_lt c hc) (by simp only at hnew; omega)
      · exact ⟨j, hold⟩
    · rw [hview]
      intro c _ k _ hg
      exact SlotTable.get_put_of_some hnone hg

theorem Inv.destroy {st : State} (h : Inv st) (v : Int) : Inv (act st (.destroy v)) := by
  have hengines := h.engines.act (.destroy v)
  have hview := view_destroy st v
  rw [act] at hengines ⊢
  cases hget : tableGet st.handles v with
  | none =>
    rw [hget] at hview
    exact h.of_view rfl rfl rfl (le_refl _) rfl (h.wf.destroy v) hview
  | some r =>
    obtain ⟨i, q⟩ := r
    rw [hget] at hview
    simp only at hview
    have hcell : ∀ s, Live (Qjs.destroy (ε := Empty) st v).2 s → ∃ j, j ≠ i ∧ st.view.cell j = some s := by
      intro s hl
      unfold Live at hl
      rw [hview] at hl
      obtain ⟨j, hj⟩ := hl
      exact ⟨j, SlotTable.cell_free.1 hj⟩
    refine h.frame rfl rfl rfl (le_refl _) (le_refl _) (h.wf.destroy v) hengines.serial_lt hengines.serial_inj ?_ ?_
    · intro c _ hl
      obtain ⟨j, _, hold⟩ := hcell _ hl
      exact ⟨j, hold⟩
    · intro c _ k hl hg
      obtain ⟨j, hji, hold⟩ := hcell _ hl
      -- the engine is live in another slot, and `k` names that slot
      have hk : k.1 = j := h.serial_inj k.1 j _ (SlotTable.cell_of_get hg) hold
      rw [hview, SlotTable.get_free_of_ne (by rw [hk]; exact hji)]
      exact hg

theorem Inv.takeRequests {st : State} (h : Inv st) (v : Int) : Inv (act st (.takeRequests v)) := by
  rw [act, mlqjsTakeRequests]
  split
  · exact h
  · rename_i i q _
    exact h.of_view rfl rfl rfl (le_refl _) rfl
      (wf_modify h.wf i fun q' => { q' with requests := q.requests.takeAll.2 }) (view_modify st i fun _ => rfl)

/-- Removing the slot that was found, and settling its promise. -/
theorem Inv.resolve {st : State} (h : Inv st) (v : Int) (id : UInt64) : Inv (act st (.resolve v id)) := by
  rw [act, mlqjsResolve]
  split
  · exact h
  · split
    · exact h
    · rename_i j hj
      obtain ⟨s, hs, hid⟩ := promiseFind_eq_some hj
      obtain ⟨hunsettled, c₀, hc₀, hcid, hcown, hcprom⟩ := h.slot_call j s hs
      simp only [hs, Option.map_some, Option.toList_some, List.singleton_append]
      have hslots : ∀ i t, promiseRemove st.promises j i = some t → i ≠ j ∧ st.promises i = some t :=
        fun i t => promiseRemove_eq_some.1
      exact
        { wf := h.wf
          serial_lt := h.serial_lt
          serial_inj := h.serial_inj
          owner_lt := h.owner_lt
          promise_lt := h.promise_lt
          settled_lt := by
            intro p hp
            rcases List.mem_cons.1 hp with rfl | hp
            · rw [← hcprom]
              exact h.promise_lt c₀ hc₀
            · exact h.settled_lt p hp
          promise_inj := h.promise_inj
          slot_call := by
            intro i t ht
            obtain ⟨hij, ht⟩ := hslots i t ht
            obtain ⟨hn, c, hc, h1, h2, h3⟩ := h.slot_call i t ht
            refine ⟨?_, c, hc, h1, h2, h3⟩
            intro hmem
            rcases List.mem_cons.1 hmem with heq | hmem
            · -- the same promise would have the same id, and so the same slot
              have : c = c₀ := h.promise_inj c hc c₀ hc₀ (by rw [h3, heq, hcprom])
              exact hij (h.id_inj i j t s ht hs (by rw [← h1, this, hcid]))
            · exact hn hmem
          call_slot := by
            intro c hc hn
            simp only [List.mem_cons, not_or] at hn
            obtain ⟨i, t, ht, h1, h2⟩ := h.call_slot c hc hn.2
            have hij : i ≠ j := by
              rintro rfl
              rw [hs] at ht
              cases ht
              exact hn.1 h2.symm
            exact ⟨i, t, promiseRemove_eq_some.2 ⟨hij, ht⟩, h1, h2⟩
          id_inj := fun i i' t t' ht ht' => h.id_inj i i' t t' (hslots i t ht).2 (hslots i' t' ht').2
          id_owner := fun c hc hl i t ht => h.id_owner c hc hl i t (hslots i t ht).2
          handle := h.handle }

/-- An injective list stays injective under a new element with a value of its own. -/
theorem inj_cons {α β : Type} {f : α → β} {c : α} {l : List α} (hinj : ∀ d ∈ l, ∀ e ∈ l, f d = f e → d = e)
    (hnew : ∀ d ∈ l, f d ≠ f c) : ∀ d ∈ c :: l, ∀ e ∈ c :: l, f d = f e → d = e := by
  intro d hd e he heq
  rcases List.mem_cons.1 hd with rfl | hd'
  · rcases List.mem_cons.1 he with rfl | he'
    · rfl
    · exact absurd heq.symm (hnew e he')
  · rcases List.mem_cons.1 he with rfl | he'
    · exact absurd heq (hnew d hd')
    · exact hinj d hd' e he' heq

/-- A new slot and its call, under a fresh number. -/
theorem Inv.insert {st : State} (h : Inv st) {v : Int} {i : Fin tableCap} {q : Runtime} {f : Runtime → Runtime}
    {j : Fin maxPromises} (hget : tableGet st.handles v = some (i, q)) (hf : ∀ q, (f q).serial = q.serial)
    (hj : st.promises j = none) (hfresh : FreshId st q) :
    Inv { st with
      handles := st.handles.modify i f
      nextPromise := st.nextPromise + 1
      promises := Function.update st.promises j (some ⟨q.requests.nextId, ⟨q.serial, st.nextPromise⟩⟩)
      calls := ⟨v, q.serial, st.nextPromise, q.requests.nextId⟩ :: st.calls } := by
  obtain ⟨g, hkey, hview⟩ := tableGet_view h.wf hget
  have hcell : st.view.cell i = some q.serial := SlotTable.cell_of_get hview
  have hv : ({ st with handles := st.handles.modify i f } : State).view = st.view := view_modify st i hf
  have hslot : ∀ k s, Function.update st.promises j (some ⟨q.requests.nextId, ⟨q.serial, st.nextPromise⟩⟩) k = some s →
      k = j ∧ s = ⟨q.requests.nextId, ⟨q.serial, st.nextPromise⟩⟩ ∨ k ≠ j ∧ st.promises k = some s :=
    fun k s => update_slot_eq_some.1
  refine
    { wf := wf_modify h.wf i f
      serial_lt := fun k s hs => h.serial_lt k s (hv ▸ hs)
      serial_inj := fun k l s hk hl => h.serial_inj k l s (hv ▸ hk) (hv ▸ hl)
      owner_lt := ?_, promise_lt := ?_, settled_lt := ?_, promise_inj := ?_, slot_call := ?_, call_slot := ?_
      id_inj := ?_, id_owner := ?_, handle := ?_ }
  · intro c hc
    rcases List.mem_cons.1 hc with rfl | hc
    · exact h.serial_lt i _ hcell
    · exact h.owner_lt c hc
  · intro c hc
    rcases List.mem_cons.1 hc with rfl | hc
    · exact Nat.lt_succ_self _
    · exact Nat.lt_succ_of_lt (h.promise_lt c hc)
  · exact fun p hp => Nat.lt_succ_of_lt (h.settled_lt p hp)
  · exact inj_cons h.promise_inj fun d hd => Nat.ne_of_lt (h.promise_lt d hd)
  · intro k s hs
    rcases hslot k s hs with ⟨rfl, rfl⟩ | ⟨_, hold⟩
    · refine ⟨fun hp => absurd (h.settled_lt _ hp) (lt_irrefl _), _, List.mem_cons_self .., rfl, rfl, rfl⟩
    · obtain ⟨hn, c, hc, h1, h2, h3⟩ := h.slot_call k s hold
      exact ⟨hn, c, List.mem_cons_of_mem _ hc, h1, h2, h3⟩
  · intro c hc hn
    rcases List.mem_cons.1 hc with rfl | hc
    · exact ⟨j, _, Function.update_self .., rfl, rfl⟩
    · obtain ⟨k, s, hs, h1, h2⟩ := h.call_slot c hc hn
      have hkj : k ≠ j := by
        rintro rfl
        rw [hj] at hs
        cases hs
      exact ⟨k, s, update_slot_eq_some.2 (Or.inr ⟨hkj, hs⟩), h1, h2⟩
  · intro k l s t hs ht heq
    rcases hslot k s hs with ⟨rfl, rfl⟩ | ⟨_, hs'⟩
    · rcases hslot l t ht with ⟨rfl, _⟩ | ⟨_, ht'⟩
      · rfl
      · exact absurd heq.symm (hfresh.1 l t ht')
    · rcases hslot l t ht with ⟨rfl, rfl⟩ | ⟨_, ht'⟩
      · exact absurd heq (hfresh.1 k s hs')
      · exact h.id_inj k l s t hs' ht' heq
  · intro c hc hl k s hs heq
    have hl' := (live_congr hv).1 hl
    rcases List.mem_cons.1 hc with rfl | hc'
    · rcases hslot k s hs with ⟨rfl, rfl⟩ | ⟨_, hs'⟩
      · rfl
      · exact absurd heq (hfresh.1 k s hs')
    · rcases hslot k s hs with ⟨rfl, rfl⟩ | ⟨_, hs'⟩
      · by_contra hne
        exact hfresh.2 c hc' (fun e => hne e.symm) hl' heq.symm
      · exact h.id_owner c hc' hl' k s hs' heq
  · intro c hc hl
    have hl' := (live_congr hv).1 hl
    rcases List.mem_cons.1 hc with rfl | hc
    · exact ⟨(i, g), hkey, hv ▸ hview⟩
    · obtain ⟨k, hk, hg⟩ := h.handle c hc hl'
      exact ⟨k, hk, hv ▸ hg⟩

theorem Inv.hostCall {st : State} (h : Inv st) {v : Int} {call : HostCall} (ha : Allowed st (.hostCall v call)) :
    Inv (act st (.hostCall v call)) := by
  rw [act]
  cases hget : tableGet st.handles v with
  | none => exact h
  | some r =>
    obtain ⟨i, q⟩ := r
    have hkeep : ∀ op payload, Inv (st.pushed i q op payload) := by
      intro op payload
      exact h.of_view rfl rfl rfl (Nat.le_succ _) rfl
        (wf_modify h.wf i fun q' => { q' with requests := (q.requests.push op payload).2 })
        (view_modify st i fun _ => rfl)
    rcases hostCall_cases hget call with ⟨msg, _, heq⟩ | ⟨op, payload, _, _, heq⟩ | ⟨op, payload, _, _, _, heq⟩ |
      ⟨op, payload, _, _, _, _, heq⟩ | ⟨op, payload, j, hreq, hroom, _, hj, heq⟩
    · simp only [heq]
      exact h
    · simp only [heq]
      exact h.of_view rfl rfl rfl (Nat.le_succ _) rfl h.wf rfl
    · simp only [heq]
      exact hkeep op payload
    · simp only [heq]
      exact (hkeep op payload).of_view rfl rfl rfl (le_refl _) rfl (hkeep op payload).wf rfl
    · simp only [heq]
      exact h.insert (f := fun q' => { q' with requests := (q.requests.push op payload).2 }) hget (fun _ => rfl) hj
        (ha i q hget ⟨_, hreq⟩ hroom ⟨j, hj⟩)

/-- **The invariant survives every allowed action.** -/
theorem Inv.act {st : State} (h : Inv st) {a : Action} (ha : Allowed st a) : Inv (act st a) := by
  cases a with
  | create alloc => exact h.create alloc
  | hostCall v call => exact h.hostCall ha
  | takeRequests v => exact h.takeRequests v
  | resolve v id => exact h.resolve v id
  | destroy v => exact h.destroy v

theorem allowedFrom_iff {st : State} {as : List Action} : AllowedFrom st as ↔ Run.Along Qjs.act Allowed st as := by
  induction as generalizing st with
  | nil => exact Iff.rfl
  | cons a as ih => exact and_congr_right fun _ => ih

/-- … and so every allowed run, at each of its states. -/
theorem inv_of_allowed {as pre : List Action} {st : State} (h : Inv st) (ha : AllowedFrom st as)
    (hpre : pre <+: as) : Inv (pre.foldl Qjs.act st) :=
  (allowedFrom_iff.1 ha).invariant (fun _ _ h ha => h.act ha) h hpre

/-- The id of an unsettled call leads to the slot with its promise. -/
theorem Inv.promiseFind_call {st : State} (h : Inv st) {c : Call} (hc : c ∈ st.calls) (hn : c.promise ∉ st.settled) :
    ∃ j s, promiseFind st.promises c.id = some j ∧ st.promises j = some s ∧ s.resolver.promise = c.promise := by
  obtain ⟨j, s, hs, hid, hprom⟩ := h.call_slot c hc hn
  obtain ⟨i, hi⟩ := exists_promiseFind hs hid
  obtain ⟨t, ht, htid⟩ := promiseFind_eq_some hi
  -- only one slot in use has this id
  obtain rfl : i = j := h.id_inj i j t s ht hs (by rw [htid, hid])
  exact ⟨i, s, hi, hs, hprom⟩

/-- What the invariant says about a resolve. -/
theorem Inv.resolvesOwn {st : State} (h : Inv st) : ResolvesOwn st := by
  intro c hc hl
  obtain ⟨k, hk, hg⟩ := h.handle c hc hl
  obtain ⟨q, hget, _⟩ := tableGet_of_view h.wf hk hg
  constructor
  · intro hn
    obtain ⟨j, s, hj, hs, hprom⟩ := h.promiseFind_call hc hn
    simp only [mlqjsResolve, hget, hj, hs, Option.map_some, Option.toList_some, List.singleton_append, hprom,
      and_self]
  · intro d hd hdn hdm
    simp only [mlqjsResolve, hget] at hdm
    split at hdm
    · exact absurd hdm hdn
    · rename_i i hi
      obtain ⟨t, ht, htid⟩ := promiseFind_eq_some hi
      simp only [ht, Option.map_some, Option.toList_some, List.singleton_append, List.mem_cons] at hdm
      rcases hdm with heq | hmem
      · obtain ⟨_, e, he, _, heown, heprom⟩ := h.slot_call i t ht
        obtain rfl : d = e := h.promise_inj d hd e he (by rw [heq, heprom])
        rw [heown]
        exact h.id_owner c hc hl i t ht htid
      · exact absurd hmem hdn

/-- **Resolving settles one's own promise** at every state of every run whose host calls get fresh
numbers. -/
theorem resolve_settles_own (as : List Action) (ha : AllowedFrom .init as) :
    ∀ pre, pre <+: as → ResolvesOwn (runActions pre) := by
  intro pre hpre
  obtain ⟨survived, hsurvived, heq⟩ := exists_runFrom_eq .init pre
  rw [runActions, heq]
  exact (inv_of_allowed Inv.init ha (hsurvived.trans hpre)).resolvesOwn

/-- The condition on a host call, with the engine looked up. -/
def FreshCall (st : State) (v : Int) : Prop :=
  match tableGet st.handles v with
  | some (_, q) => (∀ j, match st.promises j with
      | some s => s.id ≠ q.requests.nextId
      | none => True) ∧ ∀ c ∈ st.calls, (∃ i, st.view.cell i = some c.owner) → c.id ≠ q.requests.nextId
  | none => True

theorem allowed_of_freshCall {st : State} {v : Int} {call : HostCall} (h : FreshCall st v) :
    Allowed st (.hostCall v call) := by
  intro i q hget _ _ _
  unfold FreshCall at h
  rw [hget] at h
  refine ⟨fun j s hs => ?_, fun c hc _ hl => h.2 c hc hl⟩
  have := h.1 j
  rwa [hs] at this

instance (st : State) (v : Int) : Decidable (FreshCall st v) := by
  unfold FreshCall
  cases tableGet st.handles v with
  | none => exact instDecidableTrue
  | some r =>
    have : ∀ j, Decidable (match st.promises j with
      | some s => s.id ≠ r.2.requests.nextId
      | none => True) := by
      intro j
      cases st.promises j with
      | none => exact instDecidableTrue
      | some s => exact inferInstanceAs (Decidable (s.id ≠ r.2.requests.nextId))
    exact inferInstanceAs (Decidable (_ ∧ _))

/-- One engine after the other, beside one that makes no calls. -/
def sequentialRun : List Action :=
  [.create (.ok ()), .create (.ok ()), .hostCall 65536 (.rpc (str "kv.get") (str "null")), .takeRequests 65536,
    .resolve 65536 1, .destroy 65536, .create (.ok ()), .hostCall 131072 (.later 7)]

theorem resolve_settles_own_sequential :
    AllowedFrom .init sequentialRun ∧ ∀ pre, pre <+: sequentialRun → ResolvesOwn (runActions pre) := by
  have ha : AllowedFrom .init sequentialRun := by
    refine ⟨trivial, trivial, allowed_of_freshCall ?_, trivial, trivial, trivial, trivial,
      allowed_of_freshCall ?_, trivial⟩
    · decide +kernel
    · decide +kernel
  exact ⟨ha, resolve_settles_own sequentialRun ha⟩

/-- Two engines, one host call each: both requests have id 1. -/
def concurrentRun : List Action :=
  [.create (.ok ()), .create (.ok ()), .hostCall 65536 (.rpc (str "kv.get") (str "null")),
    .hostCall 65537 (.rpc (str "kv.get") (str "null"))]

/-- `mlqjs_resolve` on the second engine settles the promise of the first. -/
theorem resolve_settles_other_engine :
    ¬ ∀ as : List Action, ResolvesOwn (runActions as) := by
  intro hall
  have hcalls : (runActions concurrentRun).calls = [⟨65537, 1, 1, 1⟩, ⟨65536, 0, 0, 1⟩] := by decide +kernel
  have hlive : (runActions concurrentRun).view.cell 1 = some 1 := by decide +kernel
  have hsettled : (mlqjsResolve (ε := Empty) (runActions concurrentRun) 65537 1).2.settled = [0] := by
    decide +kernel
  obtain ⟨_, hother⟩ := hall concurrentRun ⟨65537, 1, 1, 1⟩ (by simp [hcalls]) ⟨1, hlive⟩
  have := hother ⟨65536, 0, 0, 1⟩ (by simp [hcalls]) (by decide +kernel) (by rw [hsettled]; simp)
  simp at this

end MirageLambda.Qjs
