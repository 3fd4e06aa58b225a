import MirageLambda.Qjs.Serving

/-!
# Exactly-once settlement with one engine (qjs/c/qjs_stubs.c:361-533, 584)

One engine makes host calls, OCaml drains its queue and resolves ids it got that way, in any order and as often
as it likes. A `Session` keeps, beside the state of the C side, the ids OCaml holds: those it drained and those
it resolved. `exactlyOnce_session`: at every state of such a run the slots in use are those of the ids queued or
in flight, a resolve settles the promise of the call that produced the id, and doing it again does nothing.

The numbers come from a counter of the queue that is never reused, which is why a slot that is taken again
after a resolve never carries an id that OCaml still holds.
-/

namespace MirageLambda.Qjs
open OCaml

/-- What happens in the session of engine `v`. -/
inductive Op where
  | call (c : HostCall)
  | drain
  | resolve (id : UInt64)

/-- The C side, the ids OCaml has drained and the ids it has resolved. -/
structure Session where
  st : State
  drained : List UInt64
  resolved : List UInt64

/-- The ids of the requests that `mlqjs_take_requests` hands out. -/
def drainedIds (st : State) (v : Int) : List UInt64 :=
  match (mlqjsTakeRequests (ε := Empty) st v).1 with
  | .ok rs => rs.map Request.id
  | _ => []

def Session.step (v : Int) (s : Session) : Op → Session
  | .call c => { s with st := act s.st (.hostCall v c) }
  | .drain => { s with st := act s.st (.takeRequests v), drained := s.drained ++ drainedIds s.st v }
  | .resolve id => { s with st := act s.st (.resolve v id), resolved := id :: s.resolved }

/-- Only drained ids are resolved, no host call fails for want of a slot, and there are fewer than `2^64`
requests. -/
def Session.Permits (v : Int) (s : Session) : Op → Prop
  | .call c => s.st.calls.length + 1 < 2 ^ 64 ∧ ∀ i q, tableGet s.st.handles v = some (i, q) →
      (hostCall s.st v i q c).1 ≠ .error (str "promise table full")
  | .drain => True
  | .resolve id => id ∈ s.drained

/-- The ids waiting in the queue of engine `v`. -/
def queuedIds (st : State) (v : Int) : List UInt64 :=
  match tableGet st.handles v with
  | some (_, q) => q.requests.contents.map Request.id
  | none => []

/-- An id that is the number of a slot in use. -/
def InUse (st : State) (id : UInt64) : Prop := ∃ j s, st.promises j = some s ∧ s.id = id

/-- **Exactly-once settlement**, as seen from one state of a session. -/
structure ExactlyOnce (v : Int) (s : Session) : Prop where
  /-- The slots in use have different ids. -/
  distinct : ∀ i j a b, s.st.promises i = some a → s.st.promises j = some b → a.id = b.id → i = j
  /-- They are the ids still queued and the ids drained and not yet resolved, and no id is there twice. -/
  inUse_iff : ∀ id, InUse s.st id ↔ id ∈ queuedIds s.st v ∨ id ∈ s.drained ∧ id ∉ s.resolved
  ids_nodup : (queuedIds s.st v ++ s.drained).Nodup
  /-- A drained id comes from one call, and resolving it settles the promise that call returned. -/
  produced : ∀ id ∈ s.drained, ∃ c ∈ s.st.calls, c.id = id ∧ ∀ d ∈ s.st.calls, d.id = id → d = c
  resolves : ∀ c ∈ s.st.calls, c.id ∈ s.drained → c.id ∉ s.resolved →
    (mlqjsResolve (ε := Empty) s.st v c.id).1 = .ok () ∧
      (mlqjsResolve (ε := Empty) s.st v c.id).2.settled = c.promise :: s.st.settled
  /-- Resolving again does nothing. -/
  again : ∀ id ∈ s.resolved, mlqjsResolve (ε := Empty) s.st v id = (.ok (), s.st)
  /-- No promise is settled twice, and only those whose id was resolved. -/
  settled_nodup : s.st.settled.Nodup
  settled_call : ∀ p ∈ s.st.settled, ∃ c ∈ s.st.calls, c.promise = p ∧ c.id ∈ s.resolved
  /-- No promise is lost: it is settled, or a slot holds it. -/
  accounted : ∀ c ∈ s.st.calls, c.promise ∈ s.st.settled ∨
    ∃ j a, s.st.promises j = some a ∧ a.id = c.id ∧ a.resolver.promise = c.promise

/-! ## The invariant -/

/-- The ids of the calls are those queued and those drained, each once; the next number is above all of them. -/
structure Once (v : Int) (s : Session) : Prop where
  inv : Inv s.st
  engine : ∃ i q, tableGet s.st.handles v = some (i, q) ∧ q.requests.WF ∧
    q.requests.nextId = UInt64.ofNat (s.st.calls.length + 1)
  id_le : ∀ c ∈ s.st.calls, c.id.toNat ≤ s.st.calls.length
  id_inj : ∀ c ∈ s.st.calls, ∀ d ∈ s.st.calls, c.id = d.id → c = d
  ids_iff : ∀ id, (∃ c ∈ s.st.calls, c.id = id) ↔ id ∈ queuedIds s.st v ++ s.drained
  ids_nodup : (queuedIds s.st v ++ s.drained).Nodup
  resolved_drained : ∀ id ∈ s.resolved, id ∈ s.drained
  settled_iff : ∀ c ∈ s.st.calls, c.promise ∈ s.st.settled ↔ c.id ∈ s.resolved
  settled_nodup : s.st.settled.Nodup
  settled_call : ∀ p ∈ s.st.settled, ∃ c ∈ s.st.calls, c.promise = p

section
variable {v : Int} {s : Session}

/-- A step that changes neither queue nor calls nor what is settled. -/
theorem Once.frame (h : Once v s) {st : State} (hinv : Inv st) (hhandles : st.handles = s.st.handles)
    (hcalls : st.calls = s.st.calls) (hsettled : st.settled = s.st.settled) : Once v { s with st } where
  inv := hinv
  engine := by
    simp only [hhandles, hcalls]
    exact h.engine
  id_le := by simpa only [hcalls] using h.id_le
  id_inj := by simpa only [hcalls] using h.id_inj
  ids_iff := by
    have hq : queuedIds st v = queuedIds s.st v := by unfold queuedIds; rw [hhandles]
    simpa only [hq, hcalls] using h.ids_iff
  ids_nodup := by
    have hq : queuedIds st v = queuedIds s.st v := by unfold queuedIds; rw [hhandles]
    simpa only [hq] using h.ids_nodup
  resolved_drained := h.resolved_drained
  settled_iff := by simpa only [hcalls, hsettled] using h.settled_iff
  settled_nodup := by simpa only [hsettled] using h.settled_nodup
  settled_call := by simpa only [hcalls, hsettled] using h.settled_call

/-- A number of the counter, below `2^64`. -/
theorem toNat_counter {id : UInt64} {n : Nat} (hid : id = UInt64.ofNat n) (hlt : n < 2 ^ 64) : id.toNat = n := by
  rw [hid]
  exact UInt64.toNat_ofNat_of_lt hlt

/-- The next number is that of no call so far. -/
theorem Once.fresh (h : Once v s) {q : Runtime}
    (hnext : q.requests.nextId = UInt64.ofNat (s.st.calls.length + 1)) (hlt : s.st.calls.length + 1 < 2 ^ 64) :
    ∀ c ∈ s.st.calls, c.id ≠ q.requests.nextId := by
  intro c hc heq
  have hle := h.id_le c hc
  rw [heq, toNat_counter hnext hlt] at hle
  omega

theorem Once.allowed (h : Once v s) {c : HostCall} (hp : s.Permits v (.call c)) :
    Allowed s.st (.hostCall v c) := by
  intro i q hget _ _ _
  obtain ⟨i', q', hget', _, hnext⟩ := h.engine
  rw [hget'] at hget
  cases hget
  have hfresh := h.fresh hnext hp.1
  refine ⟨?_, fun c hc _ _ => hfresh c hc⟩
  intro j a ha hid
  obtain ⟨_, c, hc, hcid, _⟩ := h.inv.slot_call j a ha
  exact hfresh c hc (by rw [hcid, hid])

theorem queuedIds_pushed {st : State} {i : Fin tableCap} {q : Runtime} (hget : tableGet st.handles v = some (i, q))
    (hwf : q.requests.WF) (hroom : q.requests.ring.count < 256) (op payload : Str) :
    queuedIds (st.pushed i q op payload) v = queuedIds st v ++ [q.requests.nextId] := by
  have hlen : q.requests.contents.length < 256 := by
    rw [HostQueue.contents, RingBuffer.length_contents]
    exact hroom
  simp only [queuedIds, tableGet_pushed hget, hget, HostQueue.contents_push hwf, if_pos hlen, List.map_append,
    List.map_cons, List.map_nil]
  rfl

/-- Nobody has seen the next number. -/
theorem Once.nextId_not_mem (h : Once v s) {q : Runtime}
    (hnext : q.requests.nextId = UInt64.ofNat (s.st.calls.length + 1)) (hlt : s.st.calls.length + 1 < 2 ^ 64) :
    q.requests.nextId ∉ queuedIds s.st v ++ s.drained := by
  intro hmem
  obtain ⟨d, hd, hid⟩ := (h.ids_iff _).2 hmem
  exact h.fresh hnext hlt d hd hid

/-- One more call, under the next number, at the end of the queue. -/
theorem Once.push (h : Once v s) {st : State} {c : Call} (hinv : Inv st) (hcalls : st.calls = c :: s.st.calls)
    (hsettled : st.settled = s.st.settled) (hlt : s.st.calls.length + 1 < 2 ^ 64)
    (hengine : ∃ i q, tableGet st.handles v = some (i, q) ∧ q.requests.WF ∧
      q.requests.nextId = UInt64.ofNat (st.calls.length + 1))
    (hid : c.id = UInt64.ofNat (s.st.calls.length + 1)) (hqueued : queuedIds st v = queuedIds s.st v ++ [c.id])
    (hnew : c.id ∉ queuedIds s.st v ++ s.drained) (hunsettled : c.promise ∉ s.st.settled) :
    Once v { s with st } := by
  have hold : ∀ d ∈ s.st.calls, d.id ≠ c.id := fun d hd heq => hnew ((h.ids_iff _).1 ⟨d, hd, heq⟩)
  have hperm : (queuedIds st v ++ s.drained).Perm (c.id :: (queuedIds s.st v ++ s.drained)) := by
    rw [hqueued, List.append_assoc]
    exact List.perm_middle
  refine ⟨hinv, hengine, ?_, ?_, ?_, ?_, h.resolved_drained, ?_, ?_, ?_⟩
  · simp only [hcalls]
    intro d hd
    rcases List.mem_cons.1 hd with rfl | hd
    · rw [toNat_counter hid hlt, List.length_cons]
    · have hle := h.id_le d hd
      simp only [List.length_cons]
      omega
  · simp only [hcalls]
    exact inj_cons h.id_inj hold
  · simp only [hcalls]
    intro id
    rw [hperm.mem_iff, List.mem_cons, ← h.ids_iff]
    constructor
    · rintro ⟨d, hd, rfl⟩
      rcases List.mem_cons.1 hd with rfl | hd
      · exact Or.inl rfl
      · exact Or.inr ⟨d, hd, rfl⟩
    · rintro (rfl | ⟨d, hd, rfl⟩)
      · exact ⟨c, List.mem_cons_self, rfl⟩
      · exact ⟨d, List.mem_cons_of_mem _ hd, rfl⟩
  · rw [hperm.nodup_iff, List.nodup_cons]
    exact ⟨hnew, h.ids_nodup⟩
  · simp only [hcalls, hsettled]
    intro d hd
    rcases List.mem_cons.1 hd with rfl | hd
    · -- the new promise is not settled, and its id not resolved
      refine iff_of_false hunsettled fun hmem => ?_
      exact hnew (List.mem_append_right _ (h.resolved_drained _ hmem))
    · exact h.settled_iff d hd
  · simp only [hsettled]
    exact h.settled_nodup
  · simp only [hcalls, hsettled]
    intro p hmem
    obtain ⟨d, hd, hdp⟩ := h.settled_call p hmem
    exact ⟨d, List.mem_cons_of_mem _ hd, hdp⟩

/-- A host call changes nothing that counts, or it is one more call. -/
theorem Once.call (h : Once v s) {c : HostCall} (hp : s.Permits v (.call c)) : Once v (s.step v (.call c)) := by
  have hinv := h.inv.hostCall (h.allowed hp)
  obtain ⟨i, q, hget, hwf, hnext⟩ := h.engine
  have hact : act s.st (.hostCall v c) = (hostCall s.st v i q c).2 := by simp only [act, hget]
  rw [Session.step]
  rw [hact] at hinv ⊢
  rcases hostCall_cases hget c with ⟨msg, _, heq⟩ | ⟨op, payload, _, _, heq⟩ | ⟨op, payload, _, _, hzero, _⟩ |
    ⟨op, payload, _, _, _, _, heq⟩ | ⟨op, payload, j, _, hroom, _, hj, heq⟩
  · rw [heq] at hinv ⊢
    exact h
  · rw [heq] at hinv ⊢
    exact h.frame hinv rfl rfl rfl
  · have hnat := toNat_counter hnext hp.1
    rw [hzero] at hnat
    exact absurd hnat (by simp)
  · exact absurd (by rw [heq]) (hp.2 i q hget)
  · rw [heq] at hinv ⊢
    refine h.push hinv rfl rfl hp.1 ?_ hnext (queuedIds_pushed hget hwf hroom op payload)
      (h.nextId_not_mem hnext hp.1) fun hmem => absurd (h.inv.settled_lt _ hmem) (lt_irrefl _)
    refine ⟨i, _, tableGet_pushed hget op payload, hwf.push op payload, ?_⟩
    rcases push_cases q.requests op payload with ⟨hfull, _⟩ | ⟨_, q', hpush, _, hnext'⟩
    · omega
    · simp only [hpush, hnext', hnext, List.length_cons]
      rw [UInt64.ofNat_add (s.st.calls.length + 1)]
      rfl

theorem drainedIds_eq {st : State} {i : Fin tableCap} {q : Runtime} (hget : tableGet st.handles v = some (i, q))
    (hwf : q.requests.WF) : drainedIds st v = queuedIds st v := by
  simp only [drainedIds, mlqjsTakeRequests, queuedIds, hget, (HostQueue.takeAll_eq hwf).1]

/-- What was queued is now drained. -/
theorem Once.drain (h : Once v s) : Once v (s.step v .drain) := by
  have hinv := h.inv.takeRequests v
  obtain ⟨i, q, hget, hwf, hnext⟩ := h.engine
  have hids := drainedIds_eq hget hwf
  have hact : act s.st (.takeRequests v) = { s.st with
      handles := s.st.handles.modify i fun q' => { q' with requests := q.requests.takeAll.2 } } := by
    simp only [act, mlqjsTakeRequests, hget]
  have hget' := tableGet_modify hget fun q' => { q' with requests := q.requests.takeAll.2 }
  rw [Session.step, hids]
  rw [hact] at hinv ⊢
  obtain ⟨_, hempty, hwf'⟩ := HostQueue.takeAll_eq hwf
  have hqueued : queuedIds { s.st with
      handles := s.st.handles.modify i fun q' => { q' with requests := q.requests.takeAll.2 } } v = [] := by
    simp only [queuedIds, hget', hempty, List.map_nil]
  have hperm : ([] ++ (s.drained ++ queuedIds s.st v)).Perm (queuedIds s.st v ++ s.drained) := by
    rw [List.nil_append]
    exact List.perm_append_comm
  refine ⟨hinv, ⟨i, _, hget', hwf', hnext⟩, h.id_le, h.id_inj, ?_, ?_, ?_, h.settled_iff, h.settled_nodup,
    h.settled_call⟩
  · intro id
    rw [hqueued, hperm.mem_iff]
    exact h.ids_iff id
  · rw [hqueued, hperm.nodup_iff]
    exact h.ids_nodup
  · intro id hid
    exact List.mem_append_left _ (h.resolved_drained id hid)

/-- An id without a slot belongs to no call that is still unsettled. -/
theorem Once.settled_of_promiseFind (h : Once v s) {id : UInt64} (hnone : promiseFind s.st.promises id = none)
    {c : Call} (hc : c ∈ s.st.calls) (hid : c.id = id) : c.promise ∈ s.st.settled := by
  by_contra hn
  obtain ⟨j, _, hj, _⟩ := h.inv.promiseFind_call hc hn
  rw [hid, hnone] at hj
  cases hj

/-- The slot that is found is that of the call with this id. -/
theorem Once.call_of_promiseFind (h : Once v s) {id : UInt64} {j : Fin maxPromises}
    (hj : promiseFind s.st.promises id = some j) :
    ∃ a c, s.st.promises j = some a ∧ c ∈ s.st.calls ∧ c.id = id ∧ a.resolver.promise = c.promise ∧
      c.promise ∉ s.st.settled := by
  obtain ⟨a, ha, haid⟩ := promiseFind_eq_some hj
  obtain ⟨hn, c, hc, hcid, _, hcprom⟩ := h.inv.slot_call j a ha
  exact ⟨a, c, ha, hc, by rw [hcid, haid], hcprom.symm, by rw [hcprom]; exact hn⟩

/-- Resolving a drained id: the slot goes, its promise is settled. Without a slot nothing happens. -/
theorem Once.resolve (h : Once v s) {id : UInt64} (hp : id ∈ s.drained) : Once v (s.step v (.resolve id)) := by
  have hinv := h.inv.resolve v id
  obtain ⟨i, q, hget, hwf, hnext⟩ := h.engine
  have hdrained : ∀ id' ∈ id :: s.resolved, id' ∈ s.drained := by
    intro id' hid'
    rcases List.mem_cons.1 hid' with rfl | hid'
    · exact hp
    · exact h.resolved_drained id' hid'
  rw [Session.step]
  cases hfind : promiseFind s.st.promises id with
  | none =>
    have hact : act s.st (.resolve v id) = s.st := by simp only [act, mlqjsResolve, hget, hfind]
    rw [hact]
    refine ⟨h.inv, h.engine, h.id_le, h.id_inj, h.ids_iff, h.ids_nodup, hdrained, ?_, h.settled_nodup, h.settled_call⟩
    intro c hc
    rw [List.mem_cons, h.settled_iff c hc]
    refine ⟨Or.inr, ?_⟩
    rintro (hid | hmem)
    · exact (h.settled_iff c hc).1 (h.settled_of_promiseFind hfind hc hid)
    · exact hmem
  | some j =>
    obtain ⟨a, c₀, ha, hc₀, hid₀, hprom, hunsettled⟩ := h.call_of_promiseFind hfind
    have hact : act s.st (.resolve v id) =
        { s.st with promises := promiseRemove s.st.promises j, settled := c₀.promise :: s.st.settled } := by
      simp only [act, mlqjsResolve, hget, hfind, ha, Option.map_some, Option.toList_some, List.singleton_append, hprom]
    rw [hact] at hinv ⊢
    refine ⟨hinv, ⟨i, q, hget, hwf, hnext⟩, h.id_le, h.id_inj, h.ids_iff, h.ids_nodup, hdrained, ?_, ?_, ?_⟩
    · intro c hc
      -- a call is `c₀` exactly when its promise is, and exactly when its id is
      have hiff : c.promise = c₀.promise ↔ c.id = id := by
        constructor
        · intro heq
          rw [h.inv.promise_inj c hc c₀ hc₀ heq, hid₀]
        · intro heq
          rw [h.id_inj c hc c₀ hc₀ (by rw [heq, hid₀])]
      rw [List.mem_cons, List.mem_cons, hiff, h.settled_iff c hc]
    · exact List.nodup_cons.2 ⟨hunsettled, h.settled_nodup⟩
    · intro p hmem
      rcases List.mem_cons.1 hmem with rfl | hmem
      · exact ⟨c₀, hc₀, rfl⟩
      · exact h.settled_call p hmem

theorem Once.step (h : Once v s) {op : Op} (hp : s.Permits v op) : Once v (s.step v op) := by
  cases op with
  | call c => exact h.call hp
  | drain => exact h.drain
  | resolve id => exact h.resolve hp

/-! ## What the invariant says -/

/-- The slots in use are those of the unresolved calls. -/
theorem Once.inUse_iff (h : Once v s) (id : UInt64) :
    InUse s.st id ↔ ∃ c ∈ s.st.calls, c.id = id ∧ id ∉ s.resolved := by
  constructor
  · rintro ⟨j, a, ha, rfl⟩
    obtain ⟨hn, c, hc, hcid, _, hcprom⟩ := h.inv.slot_call j a ha
    refine ⟨c, hc, hcid, fun hmem => hn ?_⟩
    rw [← hcprom]
    exact (h.settled_iff c hc).2 (by rw [hcid]; exact hmem)
  · rintro ⟨c, hc, rfl, hn⟩
    obtain ⟨j, a, ha, haid, _⟩ := h.inv.call_slot c hc (fun hmem => hn ((h.settled_iff c hc).1 hmem))
    exact ⟨j, a, ha, haid⟩

/-- An id that still waits was not drained before, so not resolved either. -/
theorem Once.not_resolved_of_queued (h : Once v s) {id : UInt64} (hq : id ∈ queuedIds s.st v) : id ∉ s.resolved := by
  intro hmem
  exact (List.nodup_append.1 h.ids_nodup).2.2 id hq id (h.resolved_drained id hmem) rfl

theorem Once.resolve_again (h : Once v s) {id : UInt64} (hid : id ∈ s.resolved) :
    mlqjsResolve (ε := Empty) s.st v id = (.ok (), s.st) := by
  obtain ⟨i, q, hget, _⟩ := h.engine
  cases hfind : promiseFind s.st.promises id with
  | none => simp only [mlqjsResolve, hget, hfind]
  | some j =>
    obtain ⟨_, c, _, hc, hcid, _, hunsettled⟩ := h.call_of_promiseFind hfind
    exact absurd ((h.settled_iff c hc).2 (by rw [hcid]; exact hid)) hunsettled

theorem Once.exactlyOnce (h : Once v s) : ExactlyOnce v s where
  distinct := h.inv.id_inj
  inUse_iff := by
    intro id
    rw [h.inUse_iff]
    constructor
    · rintro ⟨c, hc, hid, hn⟩
      rcases List.mem_append.1 ((h.ids_iff id).1 ⟨c, hc, hid⟩) with hq | hd
      · exact Or.inl hq
      · exact Or.inr ⟨hd, hn⟩
    · rintro (hq | ⟨hd, hn⟩)
      · obtain ⟨c, hc, hid⟩ := (h.ids_iff id).2 (List.mem_append_left _ hq)
        exact ⟨c, hc, hid, h.not_resolved_of_queued hq⟩
      · obtain ⟨c, hc, hid⟩ := (h.ids_iff id).2 (List.mem_append_right _ hd)
        exact ⟨c, hc, hid, hn⟩
  ids_nodup := h.ids_nodup
  produced := by
    intro id hid
    obtain ⟨c, hc, rfl⟩ := (h.ids_iff id).2 (List.mem_append_right _ hid)
    exact ⟨c, hc, rfl, fun d hd heq => h.id_inj d hd c hc heq⟩
  resolves := by
    intro c hc _ hn
    obtain ⟨i, q, hget, _⟩ := h.engine
    obtain ⟨j, a, hj, ha, hprom⟩ := h.inv.promiseFind_call hc fun hmem => hn ((h.settled_iff c hc).1 hmem)
    simp only [mlqjsResolve, hget, hj, ha, Option.map_some, Option.toList_some, List.singleton_append, hprom, and_self]
  again := fun _ hid => h.resolve_again hid
  settled_nodup := h.settled_nodup
  settled_call := by
    intro p hp
    obtain ⟨c, hc, rfl⟩ := h.settled_call p hp
    exact ⟨c, hc, rfl, (h.settled_iff c hc).1 hp⟩
  accounted := by
    intro c hc
    by_cases hmem : c.promise ∈ s.st.settled
    · exact Or.inl hmem
    · exact Or.inr (h.inv.call_slot c hc hmem)

end

/-! ## Runs -/

/-- A session at its start: one engine, nothing called. -/
def Session.start (st : State) : Session := { st, drained := [], resolved := [] }

theorem once_start {alloc : Except AllocFailure Unit} {v : Int} {st : State}
    (h : create (ε := Empty) .init alloc = (.ok v, st)) : Once v (.start st) := by
  have hinv : Inv st := by
    have hcreate := Inv.init.create alloc
    rw [act, h] at hcreate
    exact hcreate
  cases alloc with
  | error f =>
    have hfst := congrArg Prod.fst h
    cases hfst
  | ok u =>
    rw [create_init] at h
    cases h
    have hqueued : queuedIds .first 65536 = [] := by
      simp only [queuedIds, tableGet_first]
      rfl
    have hnone : ∀ c, c ∉ State.first.calls := fun c => List.not_mem_nil
    refine ⟨hinv, ⟨0, .fresh 0, tableGet_first, HostQueue.wf_init, rfl⟩, ?_, ?_, ?_, ?_, ?_, ?_, List.nodup_nil, ?_⟩
    · exact fun c hc => absurd hc (hnone c)
    · exact fun c hc => absurd hc (hnone c)
    · intro id
      simp only [Session.start, hqueued]
      refine iff_of_false ?_ List.not_mem_nil
      rintro ⟨c, hc, _⟩
      exact hnone c hc
    · simp only [Session.start, hqueued, List.append_nil, List.nodup_nil]
    · exact fun id hid => absurd hid List.not_mem_nil
    · exact fun c hc => absurd hc (hnone c)
    · exact fun p hp => absurd hp List.not_mem_nil

/-- **Exactly-once settlement with one engine.** -/
theorem exactlyOnce_session (alloc : Except AllocFailure Unit) (v : Int) (st : State)
    (hcreate : create (ε := Empty) .init alloc = (.ok v, st)) (ops : List Op)
    (hops : Run.Along (Session.step v) (Session.Permits v) (.start st) ops) :
    ∀ pre, pre <+: ops → ExactlyOnce v (pre.foldl (Session.step v) (.start st)) := by
  intro pre hpre
  have honce : Once v (pre.foldl (Session.step v) (.start st)) :=
    hops.invariant (fun _ _ h hp => h.step hp) (once_start hcreate) hpre
  exact honce.exactlyOnce

/-- A call with a free slot to go to is permitted. -/
theorem permits_call {v : Int} {s : Session} {c : HostCall} {r : Str × Str} {j : Fin maxPromises}
    (hlen : s.st.calls.length + 1 < 2 ^ 64) (hreq : c.request = .ok r) (hj : s.st.promises j = none) :
    s.Permits v (.call c) := by
  refine ⟨hlen, ?_⟩
  intro i q hget
  have hfull : c.queueFull ≠ str "promise table full" := by cases c <;> simp only [HostCall.queueFull] <;> decide
  rcases hostCall_cases hget c with ⟨msg, hbad, _⟩ | ⟨op, payload, _, _, heq⟩ | ⟨op, payload, _, _, _, heq⟩ |
    ⟨op, payload, _, _, _, htable, _⟩ | ⟨op, payload, k, _, _, _, _, heq⟩
  · rw [hreq] at hbad
    cases hbad
  · rw [heq]
    exact fun h => hfull (Except.error.inj h)
  · rw [heq]
    exact fun h => hfull (Except.error.inj h)
  · exact absurd hj (htable j)
  · rw [heq]
    intro h
    cases h

/-- Two calls, resolved in the other order and one of them twice, and a third call in the slot that is free again. -/
def outOfOrder : List Op :=
  [.call (.later 7), .call (.rpc (str "kv.get") (str "null")), .drain, .resolve 2, .resolve 2, .call (.later 8),
    .drain, .resolve 1]

theorem exactlyOnce_outOfOrder :
    create (ε := Empty) .init (.ok ()) = (.ok 65536, .first) ∧
      Run.Along (Session.step 65536) (Session.Permits 65536) (.start .first) outOfOrder ∧
      ∀ pre, pre <+: outOfOrder → ExactlyOnce 65536 (pre.foldl (Session.step 65536) (.start .first)) := by
  have halong : Run.Along (Session.step 65536) (Session.Permits 65536) (.start .first) outOfOrder := by
    refine ⟨?_, ?_, trivial, ?_, ?_, ?_, trivial, ?_, trivial⟩
    · exact permits_call (j := ⟨5, by decide⟩) (by decide +kernel) rfl (by decide +kernel)
    · exact permits_call (j := ⟨5, by decide⟩) (by decide +kernel) rfl (by decide +kernel)
    · change (2 : UInt64) ∈ Session.drained _
      decide +kernel
    · change (2 : UInt64) ∈ Session.drained _
      decide +kernel
    · exact permits_call (j := ⟨5, by decide⟩) (by decide +kernel) rfl (by decide +kernel)
    · change (1 : UInt64) ∈ Session.drained _
      decide +kernel
  exact ⟨create_init, halong, exactlyOnce_session _ _ _ create_init outOfOrder halong⟩

end MirageLambda.Qjs
