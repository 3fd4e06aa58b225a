import Mathlib.Data.Fintype.Card
import MirageLambda.Qjs.Serving

/-!
# Host calls that throw (qjs/c/qjs_stubs.c:404, 444)

`host.later` and `host.rpc` acquire a promise, an entry of the queue and a slot of the promise table, in this
order. When the slot cannot be had they throw, and the entry stays in the queue: OCaml drains it and performs
the operation of a call that the function saw fail. `hostCall_noEffect_iff` gives the states in which a
throwing call leaves no trace, `fullRun` reaches one in which it does.
-/

namespace MirageLambda.Qjs
open OCaml

/-- Every queue, the promise table, and what each engine's next drain hands to OCaml are as they were. -/
structure NoEffect (st st' : State) : Prop where
  queues : ∀ j, (st'.handles.table j).map (fun c => c.runtime.requests.contents) =
    (st.handles.table j).map fun c => c.runtime.requests.contents
  promises : st'.promises = st.promises
  drains : ∀ w, (mlqjsTakeRequests (ε := Empty) st' w).1 = (mlqjsTakeRequests (ε := Empty) st w).1

theorem NoEffect.of_eq {st st' : State} (hh : st'.handles = st.handles) (hp : st'.promises = st.promises) :
    NoEffect st st' := by
  refine ⟨fun j => by rw [hh], hp, fun w => ?_⟩
  unfold mlqjsTakeRequests
  rw [hh]
  cases tableGet st.handles w with
  | none => rfl
  | some r => rfl

/-- A request that was put in the queue is an effect. -/
theorem not_noEffect_pushed {st st' : State} {v : Int} {i : Fin tableCap} {q : Runtime} {op payload : Str}
    (hget : tableGet st.handles v = some (i, q)) (hroom : q.requests.ring.count < 256)
    (hst' : st'.handles = (st.pushed i q op payload).handles) : ¬ NoEffect st st' := by
  intro h
  obtain ⟨c, hc, rfl⟩ := table_of_tableGet hget
  have hqueue := h.queues i
  rw [hst'] at hqueue
  simp only [State.pushed, Table.modify, Function.update_self, hc, Option.map_some, Option.some.injEq] at hqueue
  rcases push_cases c.runtime.requests op payload with ⟨hfull, _⟩ | ⟨_, q', hpush, hcount, _⟩
  · omega
  · have hlen := congrArg List.length hqueue
    rw [hpush] at hlen
    simp only [HostQueue.contents, RingBuffer.length_contents] at hlen
    omega

/-- **When a throwing host call leaves no trace**: its arguments are bad, or the queue was full, or it does not
throw because there is a number and a slot for it. -/
theorem hostCall_noEffect_iff (st : State) (v : Int) (i : Fin tableCap) (q : Runtime)
    (hget : tableGet st.handles v = some (i, q)) (call : HostCall) :
    ((∃ msg, (hostCall st v i q call).1 = .error msg) → NoEffect st (hostCall st v i q call).2) ↔
      (∃ msg, call.request = .error msg) ∨ 256 ≤ q.requests.contents.length ∨
        (q.requests.nextId ≠ 0 ∧ ∃ j, st.promises j = none) := by
  have hlen : q.requests.contents.length = q.requests.ring.count := RingBuffer.length_contents _
  rw [hlen]
  rcases hostCall_cases hget call with ⟨msg, hreq, heq⟩ | ⟨op, payload, hreq, hfull, heq⟩ |
    ⟨op, payload, hreq, hroom, hzero, heq⟩ | ⟨op, payload, hreq, hroom, _, htable, heq⟩ |
    ⟨op, payload, j, hreq, hroom, hid, hj, heq⟩
  · rw [heq]
    exact iff_of_true (fun _ => NoEffect.of_eq rfl rfl) (Or.inl ⟨msg, hreq⟩)
  · rw [heq]
    exact iff_of_true (fun _ => NoEffect.of_eq rfl rfl) (Or.inr (Or.inl hfull))
  · rw [heq]
    refine iff_of_false (fun h => not_noEffect_pushed hget hroom rfl (h ⟨_, rfl⟩)) ?_
    rintro (⟨msg, hbad⟩ | hfull | ⟨hid, _⟩)
    · rw [hreq] at hbad
      cases hbad
    · omega
    · exact hid hzero
  · rw [heq]
    have hhandles : { st.pushed i q op payload with leaked := q.serial :: st.leaked }.handles =
        (st.pushed i q op payload).handles := rfl
    refine iff_of_false (fun h => not_noEffect_pushed hget hroom hhandles (h ⟨_, rfl⟩)) ?_
    rintro (⟨msg, hbad⟩ | hfull | ⟨_, j, hj⟩)
    · rw [hreq] at hbad
      cases hbad
    · omega
    · exact htable j hj
  · rw [heq]
    refine iff_of_true ?_ (Or.inr (Or.inr ⟨hid, j, hj⟩))
    rintro ⟨msg, hmsg⟩
    cases hmsg

/-! ## A full promise table -/

/-- The slots in use. -/
def used (ps : Fin maxPromises → Option PromiseSlot) : Finset (Fin maxPromises) :=
  Finset.univ.filter fun j => (ps j).isSome

theorem used_update {ps : Fin maxPromises → Option PromiseSlot} {j : Fin maxPromises} (hj : ps j = none)
    (s : PromiseSlot) : (used (Function.update ps j (some s))).card = (used ps).card + 1 := by
  have hnot : j ∉ used ps := by simp [used, hj]
  have hinsert : used (Function.update ps j (some s)) = insert j (used ps) := by
    ext k
    by_cases hkj : k = j
    · subst hkj
      simp [used]
    · simp [used, hkj]
  rw [hinsert, Finset.card_insert_of_notMem hnot]

theorem used_eq_univ {ps : Fin maxPromises → Option PromiseSlot} (h : (used ps).card = maxPromises) (j : Fin maxPromises) :
    ps j ≠ none := by
  have huniv : used ps = Finset.univ := by
    rw [← Finset.card_eq_iff_eq_univ, h, Fintype.card_fin]
  intro hj
  have hmem : j ∈ used ps := by rw [huniv]; exact Finset.mem_univ j
  simp [used, hj] at hmem

/-- The engine has `n` requests waiting, and `n` slots are in use. -/
def Filled (n : Nat) (st : State) : Prop :=
  ∃ i q, tableGet st.handles 65536 = some (i, q) ∧ q.requests.WF ∧ q.requests.ring.count = n ∧
    q.requests.nextId = UInt64.ofNat (n + 1) ∧ (used st.promises).card = n

theorem Filled.hostCall {n : Nat} {st : State} (h : Filled n st) (hn : n < 256) :
    Filled (n + 1) (act st (.hostCall 65536 (.later 0))) := by
  obtain ⟨i, q, hget, hwf, hcount, hnext, hused⟩ := h
  have hid : q.requests.nextId.toNat = n + 1 := by
    rw [hnext]
    exact UInt64.toNat_ofNat_of_lt (by simp only [UInt64.size]; omega)
  simp only [act, hget]
  rcases hostCall_cases hget (.later 0) with ⟨msg, hreq, _⟩ | ⟨op, payload, _, hfull, _⟩ |
    ⟨op, payload, _, _, hzero, _⟩ | ⟨op, payload, _, _, _, htable, _⟩ | ⟨op, payload, j, _, hroom, _, hj, heq⟩
  · cases hreq
  · omega
  · rw [hzero] at hid
    simp at hid
  · have hall : used st.promises = Finset.univ := by
      ext j
      simp [used, Option.isSome_iff_ne_none, htable j]
    rw [hall, Finset.card_univ, Fintype.card_fin] at hused
    exact absurd hused.symm (by unfold maxPromises; omega)
  · rw [heq]
    rcases push_cases q.requests op payload with ⟨hfull, _⟩ | ⟨_, q', hpush, hcount', hnext'⟩
    · omega
    · refine ⟨i, _, tableGet_pushed hget op payload, hwf.push op payload, ?_, ?_, ?_⟩
      · simp only [hpush, hcount', hcount]
      · simp only [hpush, hnext', hnext]
        rw [UInt64.ofNat_add (n + 1)]
        rfl
      · simp only [used_update hj, hused]

theorem filled_zero : Filled 0 (runActions [.create (.ok ())]) := by
  have hrun : runActions [.create (.ok ())] = .first := by
    rw [runActions, runFrom_eq_foldl (by simp)]
    simp only [List.foldl_cons, List.foldl_nil, act, create_init]
  rw [hrun]
  refine ⟨0, .fresh 0, tableGet_first, HostQueue.wf_init, rfl, rfl, ?_⟩
  simp [used, State.first_eq, State.init]

/-- On a new engine a call with a bad argument leaves no trace. -/
theorem hostCall_noEffect_rejected :
    ∃ i q, tableGet (runActions [.create (.ok ())]).handles 65536 = some (i, q) ∧
      NoEffect (runActions [.create (.ok ())])
        (hostCall (runActions [.create (.ok ())]) 65536 i q (.rejected (str "host.later expects 1 argument"))).2 := by
  obtain ⟨i, q, hget, _⟩ := filled_zero
  refine ⟨i, q, hget, ?_⟩
  exact (hostCall_noEffect_iff _ _ i q hget (.rejected (str "host.later expects 1 argument"))).2
    (Or.inl ⟨_, rfl⟩) ⟨_, rfl⟩

/-- As many host calls as there are slots. -/
def fillRun (n : Nat) : List Action := .create (.ok ()) :: List.replicate n (.hostCall 65536 (.later 0))

theorem fillRun_no_destroy (n : Nat) : ∀ a ∈ fillRun n, ∀ v, a ≠ .destroy v := by
  intro a ha v
  obtain rfl | ha := List.mem_cons.1 ha
  · simp
  · rw [List.eq_of_mem_replicate ha]
    simp

theorem filled_fillRun {n : Nat} (hn : n ≤ 256) : Filled n (runActions (fillRun n)) := by
  induction n with
  | zero => exact filled_zero
  | succ n ih =>
    have hrun : fillRun (n + 1) = fillRun n ++ [.hostCall 65536 (.later 0)] := by
      rw [fillRun, List.replicate_succ']
      rfl
    have hlives := fillRun_no_destroy (n + 1)
    rw [hrun] at hlives ⊢
    rw [runActions_concat hlives]
    exact (ih (by omega)).hostCall (by omega)

/-- 256 host calls and a drain: all slots are in use, nothing waits. -/
def fullRun : List Action := fillRun 256 ++ [.takeRequests 65536]

/-- Once the queue has been drained, one more call throws and leaves its request. -/
theorem Filled.hostCall_drained {st st' : State} (h : Filled 256 st) (hst' : act st (.takeRequests 65536) = st') :
    ∃ i q, tableGet st'.handles 65536 = some (i, q) ∧
      (Qjs.hostCall st' 65536 i q (.later 7)).1 = .error (str "promise table full") ∧
      ¬ NoEffect st' (Qjs.hostCall st' 65536 i q (.later 7)).2 := by
  obtain ⟨i, q, hget, hwf, _, hnext, hused⟩ := h
  simp only [act, mlqjsTakeRequests, hget] at hst'
  have hget' : tableGet st'.handles 65536 = some (i, { q with requests := q.requests.takeAll.2 }) := by
    rw [← hst']
    exact tableGet_modify hget fun q' => { q' with requests := q.requests.takeAll.2 }
  have htable : ∀ j, st'.promises j ≠ none := by
    rw [← hst']
    exact used_eq_univ hused
  have hempty : q.requests.takeAll.2.ring.count = 0 := by
    rw [← RingBuffer.length_contents]
    exact congrArg List.length (HostQueue.takeAll_eq hwf).2.1
  refine ⟨i, _, hget', ?_⟩
  rcases hostCall_cases hget' (.later 7) with ⟨msg, hreq, _⟩ | ⟨op, payload, _, hfull, _⟩ |
    ⟨op, payload, _, _, hzero, _⟩ | ⟨op, payload, _, hroom, _, _, heq⟩ | ⟨op, payload, j, _, _, _, hj, _⟩
  · cases hreq
  · simp only [hempty] at hfull
    omega
  · have hnext' : q.requests.nextId = 0 := hzero
    rw [hnext] at hnext'
    exact absurd hnext' (by decide)
  · rw [heq]
    exact ⟨rfl, not_noEffect_pushed hget' hroom rfl⟩
  · exact absurd hj (htable j)

/-- After 256 calls and a drain, a call throws and its request is in the queue. -/
theorem hostCall_full_leaves_request :
    ∃ i q, tableGet (runActions fullRun).handles 65536 = some (i, q) ∧
      (hostCall (runActions fullRun) 65536 i q (.later 7)).1 = .error (str "promise table full") ∧
      ¬ NoEffect (runActions fullRun) (hostCall (runActions fullRun) 65536 i q (.later 7)).2 := by
  have hlives : ∀ a ∈ fillRun 256 ++ [.takeRequests 65536], ∀ v, a ≠ .destroy v :=
    List.forall_mem_append.2 ⟨fillRun_no_destroy 256, by simp⟩
  exact (filled_fillRun (le_refl 256)).hostCall_drained (runActions_concat hlives).symm

end MirageLambda.Qjs
