import MirageLambda.Lib.Run
import MirageLambda.Control.Scheduler

/-!
# What becomes of an enqueued invocation (control/scheduler.ml:25-42)

A `History` keeps, beside the scheduler, what was enqueued, what `next_assignment` has returned, and the ids that
were cancelled while they were pending: enqueued, not yet assigned and not cancelled before. A cancel of any other
id is not recorded, so an id that is cancelled before it is enqueued is still assigned.

With distinct ids nothing is lost and nothing is assigned twice (`scheduler_conserves`): what was assigned,
followed by what waits, is what was enqueued without the cancelled ones, in that order. And nothing waits in vain:
each `next_assignment` returns the earliest of those that wait, until none does.
-/

namespace MirageLambda
open OCaml

namespace Scheduler

/-- The operations of the scheduler. -/
inductive Act where
  | enqueue (p : Pending)
  | cancel (id : InvocationId)
  | nextAssignment

/-- The scheduler and what happened to it. -/
structure History where
  scheduler : Scheduler
  enqueued : List Pending
  assigned : List Pending
  cancelled : List InvocationId

namespace History

def start : History := { scheduler := make, enqueued := [], assigned := [], cancelled := [] }

/-- An enqueued invocation has this id, and it is neither assigned nor cancelled. -/
def StillPending (h : History) (id : InvocationId) : Prop :=
  (∃ p ∈ h.enqueued, p.invocationId = id) ∧ id ∉ h.assigned.map Pending.invocationId ∧ id ∉ h.cancelled

instance (h : History) (id : InvocationId) : Decidable (h.StillPending id) := inferInstanceAs (Decidable (_ ∧ _))

def step (h : History) : Act → History
  | .enqueue p => { h with scheduler := h.scheduler.enqueue p, enqueued := h.enqueued ++ [p] }
  | .cancel id =>
    { h with
      scheduler := (h.scheduler.cancel id).2
      cancelled := if h.StillPending id then h.cancelled ++ [id] else h.cancelled }
  | .nextAssignment =>
    { h with
      scheduler := h.scheduler.nextAssignment.2
      assigned := h.assigned ++ h.scheduler.nextAssignment.1.toList }

/-- What a list of operations enqueues. -/
def enqueues (acts : List Act) : List Pending :=
  acts.filterMap fun
    | .enqueue p => some p
    | _ => none

/-- What was enqueued and not cancelled while pending. -/
def kept (h : History) : List Pending := h.enqueued.filter fun p => !(h.cancelled.contains p.invocationId)

/-- **Conservation and order**, as seen from one state of a history. -/
structure Conserves (h : History) : Prop where
  /-- Assigned, then still waiting: the enqueued ones that were not cancelled while pending, in their order. -/
  order : h.assigned ++ h.scheduler.queue = h.kept
  once : ((h.assigned ++ h.scheduler.queue).map Pending.invocationId).Nodup
  /-- `cancel` answers `` `Removed `` exactly for a pending id. -/
  cancel_iff : ∀ id, (h.scheduler.cancel id).1 = .removed ↔ h.StillPending id
  /-- It takes out the one invocation with that id, and nothing when it answers `` `Absent ``. -/
  cancel_removed : ∀ id, h.StillPending id → ∃ before p after, p.invocationId = id ∧
    h.scheduler.queue = before ++ p :: after ∧ (h.scheduler.cancel id).2.queue = before ++ after
  cancel_absent : ∀ id, ¬ h.StillPending id → (h.scheduler.cancel id).2.queue = h.scheduler.queue
  /-- `next_assignment` returns the head of what waits and leaves the rest. -/
  next_head : ∀ p rest, h.scheduler.queue = p :: rest →
    h.scheduler.nextAssignment.1 = some p ∧ h.scheduler.nextAssignment.2.queue = rest
  /-- It answers `None` only when nothing waits. -/
  next_none : h.scheduler.nextAssignment.1 = none ↔ h.scheduler.queue = []
  /-- What it returns is the earliest kept one that it has not returned yet. -/
  next_kept : h.scheduler.nextAssignment.1 = h.kept[h.assigned.length]?
  /-- Called `queue_size` times, it has returned exactly the kept ones, in their order. -/
  drained : ((List.replicate h.scheduler.queueSize Act.nextAssignment).foldl step h).assigned = h.kept
  size : h.scheduler.queueSize + h.assigned.length + h.cancelled.length = h.enqueued.length

/-! ## The invariant -/

/-- Distinct ids, and a cancelled id is one that was enqueued. -/
structure Inv (h : History) : Prop where
  distinct : (h.enqueued.map Pending.invocationId).Nodup
  order : h.assigned ++ h.scheduler.queue = h.kept
  cancelled_nodup : h.cancelled.Nodup
  cancelled_mem : ∀ id ∈ h.cancelled, id ∈ h.enqueued.map Pending.invocationId

variable {h : History}

theorem mem_kept {p : Pending} : p ∈ h.kept ↔ p ∈ h.enqueued ∧ p.invocationId ∉ h.cancelled := by
  simp [kept]

theorem Inv.once (hi : Inv h) : ((h.assigned ++ h.scheduler.queue).map Pending.invocationId).Nodup := by
  rw [hi.order, kept]
  exact hi.distinct.sublist (List.filter_sublist.map _)

/-- A pending id is one in the queue. -/
theorem Inv.stillPending_iff (hi : Inv h) (id : InvocationId) : h.StillPending id ↔ id ∈ h.scheduler.ids := by
  have hnodup := hi.once
  rw [List.map_append, List.nodup_append] at hnodup
  constructor
  · rintro ⟨⟨p, hp, rfl⟩, hassigned, hcancelled⟩
    have hmem : p ∈ h.assigned ++ h.scheduler.queue := by
      rw [hi.order, mem_kept]
      exact ⟨hp, hcancelled⟩
    rcases List.mem_append.1 hmem with hmem | hmem
    · exact absurd (List.mem_map_of_mem hmem) hassigned
    · exact List.mem_map_of_mem hmem
  · intro hid
    obtain ⟨p, hp, rfl⟩ := List.mem_map.1 hid
    have hmem : p ∈ h.kept := by
      rw [← hi.order]
      exact List.mem_append_right _ hp
    rw [mem_kept] at hmem
    refine ⟨⟨p, hmem.1, rfl⟩, fun hassigned => ?_, hmem.2⟩
    exact hnodup.2.2 _ hassigned _ hid rfl

/-- An id with no entry in the queue is removed nowhere. -/
theorem queue_cancel_of_not_mem {t : Scheduler} {id : InvocationId} (hid : id ∉ t.ids) :
    (t.cancel id).2.queue = t.queue := by
  refine List.filter_eq_self.2 fun p hp => ?_
  have hne : p.invocationId ≠ id := by
    rintro rfl
    exact hid (List.mem_map_of_mem hp)
  simpa using hne

/-- An id with one entry in the queue is removed there. -/
theorem queue_cancel_of_mem {t : Scheduler} {id : InvocationId} (hnodup : t.ids.Nodup) (hid : id ∈ t.ids) :
    ∃ before p after, p.invocationId = id ∧ t.queue = before ++ p :: after ∧ (t.cancel id).2.queue = before ++ after := by
  obtain ⟨p, hp, rfl⟩ := List.mem_map.1 hid
  obtain ⟨before, after, hsplit⟩ := List.append_of_mem hp
  refine ⟨before, p, after, rfl, hsplit, ?_⟩
  rw [ids, hsplit, List.map_append, List.map_cons, List.nodup_middle, List.nodup_cons, ← List.map_append] at hnodup
  have hothers : ∀ q ∈ before ++ after, (!(q.invocationId == p.invocationId)) = true := by
    intro q hq
    have hne : q.invocationId ≠ p.invocationId := fun h => hnodup.1 (h ▸ List.mem_map_of_mem hq)
    simpa using hne
  show t.queue.filter (fun q => !(q.invocationId == p.invocationId)) = before ++ after
  rw [hsplit, List.filter_append, List.filter_cons_of_neg (by simp), ← List.filter_append]
  exact List.filter_eq_self.2 hothers

/-- The answer of `cancel` says whether the id was in the queue. -/
theorem cancel_eq_removed {t : Scheduler} (hnodup : t.ids.Nodup) (id : InvocationId) :
    (t.cancel id).1 = .removed ↔ id ∈ t.ids := by
  have hanswer : (t.cancel id).1 = if t.queue.length = (t.cancel id).2.queue.length then .absent else .removed := rfl
  rw [hanswer]
  by_cases hid : id ∈ t.ids
  · obtain ⟨before, p, after, -, hqueue, hafter⟩ := queue_cancel_of_mem hnodup hid
    rw [hqueue, hafter, if_neg (by simp)]
    exact iff_of_true rfl hid
  · rw [queue_cancel_of_not_mem hid, if_pos rfl]
    exact iff_of_false (by simp) hid

theorem nextAssignment_of_nil {t : Scheduler} (h : t.queue = []) : t.nextAssignment = (none, t) := by
  rw [nextAssignment, h]

theorem nextAssignment_of_cons {t : Scheduler} {p : Pending} {rest : List Pending} (h : t.queue = p :: rest) :
    t.nextAssignment = (some p, ⟨rest⟩) := by
  rw [nextAssignment, h]

/-- `next_assignment` hands out the head of the queue, if there is one. -/
theorem nextAssignment_eq_head? (t : Scheduler) : t.nextAssignment.1 = t.queue.head? := by
  cases h : t.queue with
  | nil => rw [nextAssignment_of_nil h, List.head?_nil]
  | cons p rest => rw [nextAssignment_of_cons h, List.head?_cons]

theorem toList_append_nextAssignment (t : Scheduler) :
    t.nextAssignment.1.toList ++ t.nextAssignment.2.queue = t.queue := by
  cases h : t.queue with
  | nil => rw [nextAssignment_of_nil h, h, Option.toList_none, List.nil_append]
  | cons p rest => rw [nextAssignment_of_cons h, Option.toList_some, List.singleton_append]

/-- As many calls of `next_assignment` as invocations wait return all of them. -/
theorem assigned_drain (h : History) :
    ((List.replicate h.scheduler.queueSize Act.nextAssignment).foldl step h).assigned =
      h.assigned ++ h.scheduler.queue := by
  generalize hqueue : h.scheduler.queue = queue
  rw [queueSize, hqueue]
  induction queue generalizing h with
  | nil => rw [List.length_nil, List.replicate_zero, List.foldl_nil, List.append_nil]
  | cons p rest ih =>
    have hnext := nextAssignment_of_cons hqueue
    have hrest : (h.step .nextAssignment).scheduler.queue = rest := by rw [step, hnext]
    have hassigned : (h.step .nextAssignment).assigned = h.assigned ++ [p] := by rw [step, hnext, Option.toList_some]
    rw [List.length_cons, List.replicate_succ, List.foldl_cons, ih _ hrest, hassigned, List.append_assoc,
      List.singleton_append]

theorem Inv.nodup_ids (hi : Inv h) : h.scheduler.ids.Nodup := by
  have hnodup := hi.once
  rw [List.map_append, List.nodup_append] at hnodup
  exact hnodup.2.1

/-! ### What each operation keeps -/

theorem inv_start : Inv start := ⟨by simp [start], rfl, by simp [start], by simp [start]⟩

/-- A new id. -/
def Fresh (h : History) : Act → Prop
  | .enqueue p => p.invocationId ∉ h.enqueued.map Pending.invocationId
  | _ => True

theorem Inv.enqueue (hi : Inv h) {p : Pending} (hnew : p.invocationId ∉ h.enqueued.map Pending.invocationId) :
    Inv (h.step (.enqueue p)) where
  distinct := by
    simp only [step, List.map_append, List.map_singleton]
    exact List.nodup_append.2 ⟨hi.distinct, by simp, by
      rintro a ha b hb rfl
      rw [List.mem_singleton] at hb
      exact hnew (hb ▸ ha)⟩
  order := by
    have hkept : p.invocationId ∉ h.cancelled := fun hc => hnew (hi.cancelled_mem _ hc)
    simp only [step, Scheduler.enqueue, kept, List.filter_append]
    rw [← List.append_assoc, hi.order, kept, List.filter_cons_of_pos (by simpa using hkept), List.filter_nil]
  cancelled_nodup := hi.cancelled_nodup
  cancelled_mem := by
    intro id hid
    simp only [step, List.map_append]
    exact List.mem_append_left _ (hi.cancelled_mem id hid)

theorem Inv.nextAssignment (hi : Inv h) : Inv (h.step .nextAssignment) where
  distinct := hi.distinct
  order := by
    have horder := hi.order
    show h.assigned ++ h.scheduler.nextAssignment.1.toList ++ h.scheduler.nextAssignment.2.queue = h.kept
    rw [List.append_assoc, toList_append_nextAssignment]
    exact horder
  cancelled_nodup := hi.cancelled_nodup
  cancelled_mem := hi.cancelled_mem

/-- An id that is not pending is cancelled without effect. -/
theorem Inv.step_cancel_of_not (hi : Inv h) {id : InvocationId} (hno : ¬ h.StillPending id) :
    h.step (.cancel id) = h := by
  have hqueue : (h.scheduler.cancel id).2 = h.scheduler :=
    congrArg Scheduler.mk (queue_cancel_of_not_mem (mt (hi.stillPending_iff id).2 hno))
  simp only [step, hqueue, if_neg hno]

/-- Cancelling a pending id takes it out of the queue, and out of what is to be assigned. -/
theorem Inv.cancel (hi : Inv h) (id : InvocationId) : Inv (h.step (.cancel id)) := by
  by_cases hpending : h.StillPending id
  · refine ⟨hi.distinct, ?_, ?_, ?_⟩
    · have hassigned : h.assigned.filter (fun p => !(p.invocationId == id)) = h.assigned := by
        refine List.filter_eq_self.2 fun p hp => ?_
        have hne : p.invocationId ≠ id := fun heq => hpending.2.1 (heq ▸ List.mem_map_of_mem hp)
        simpa using hne
      have hcancelled : (h.step (.cancel id)).cancelled = h.cancelled ++ [id] := if_pos hpending
      have hkept : (h.step (.cancel id)).kept = h.kept.filter fun p => !(p.invocationId == id) := by
        rw [kept, hcancelled, kept, List.filter_filter]
        refine List.filter_congr fun p _ => ?_
        by_cases hid : p.invocationId = id <;> simp [hid]
      rw [hkept, ← hi.order, List.filter_append, hassigned]
      rfl
    · simp only [step, if_pos hpending]
      exact List.nodup_append.2 ⟨hi.cancelled_nodup, by simp, by
        rintro a ha b hb rfl
        rw [List.mem_singleton] at hb
        exact hpending.2.2 (hb ▸ ha)⟩
    · simp only [step, if_pos hpending, List.mem_append, List.mem_singleton]
      rintro a (ha | rfl)
      · exact hi.cancelled_mem a ha
      · obtain ⟨p, hp, rfl⟩ := hpending.1
        exact List.mem_map_of_mem hp
  · rw [hi.step_cancel_of_not hpending]
    exact hi

theorem Inv.step (hi : Inv h) {act : Act} (hfresh : Fresh h act) : Inv (h.step act) := by
  cases act with
  | enqueue p => exact hi.enqueue hfresh
  | cancel id => exact hi.cancel id
  | nextAssignment => exact hi.nextAssignment

/-! ### What it says -/

/-- Every enqueued invocation is kept or cancelled. -/
theorem Inv.length_kept (hi : Inv h) : h.kept.length + h.cancelled.length = h.enqueued.length := by
  have hcancelled : (h.enqueued.filter fun p => h.cancelled.contains p.invocationId).length = h.cancelled.length := by
    have hperm : (h.enqueued.filter fun p => h.cancelled.contains p.invocationId).map Pending.invocationId |>.Perm
        h.cancelled := by
      refine (List.perm_ext_iff_of_nodup (hi.distinct.sublist (List.filter_sublist.map _)) hi.cancelled_nodup).2 ?_
      intro id
      simp only [List.mem_map, List.mem_filter, List.contains_iff_mem]
      constructor
      · rintro ⟨p, ⟨-, hp⟩, rfl⟩
        exact hp
      · intro hid
        obtain ⟨p, hp, rfl⟩ := List.mem_map.1 (hi.cancelled_mem id hid)
        exact ⟨p, ⟨hp, hid⟩, rfl⟩
    have hlen := hperm.length_eq
    rwa [List.length_map] at hlen
  have hsplit := List.length_eq_length_filter_add (l := h.enqueued) fun p => h.cancelled.contains p.invocationId
  rw [kept]
  omega

theorem Inv.conserves (hi : Inv h) : Conserves h where
  order := hi.order
  once := hi.once
  cancel_iff id := by rw [cancel_eq_removed hi.nodup_ids, hi.stillPending_iff]
  cancel_removed id hid := queue_cancel_of_mem hi.nodup_ids ((hi.stillPending_iff id).1 hid)
  cancel_absent id hno := queue_cancel_of_not_mem (mt (hi.stillPending_iff id).2 hno)
  next_head p rest hqueue := by
    rw [nextAssignment_of_cons hqueue]
    exact ⟨rfl, rfl⟩
  next_none := by rw [nextAssignment_eq_head?, List.head?_eq_none_iff]
  next_kept := by
    rw [nextAssignment_eq_head?, ← hi.order, List.getElem?_append_right (le_refl _), Nat.sub_self,
      List.head?_eq_getElem?]
  drained := by rw [assigned_drain, hi.order]
  size := by
    have horder := congrArg List.length hi.order
    rw [List.length_append] at horder
    have hkept := hi.length_kept
    unfold queueSize
    omega

/-! ### Runs -/

theorem enqueued_run (acts : List Act) (h : History) :
    (acts.foldl step h).enqueued = h.enqueued ++ enqueues acts := by
  induction acts generalizing h with
  | nil => simp [enqueues]
  | cons act acts ih =>
    rw [List.foldl_cons, ih]
    cases act <;> simp [step, enqueues]

/-- In a run with distinct ids every enqueued id is new. -/
theorem along_fresh {acts : List Act} (hdistinct : ((enqueues acts).map Pending.invocationId).Nodup) :
    Run.Along step Fresh start acts := by
  rw [Run.along_iff]
  intro pre act hpre
  cases act with
  | enqueue p =>
    obtain ⟨post, rfl⟩ := hpre
    have hnodup : ((enqueues pre ++ [p]).map Pending.invocationId).Nodup := by
      refine hdistinct.sublist (List.Sublist.map _ ?_)
      simp [enqueues, List.filterMap_append]
    rw [Fresh, enqueued_run]
    rw [List.map_append, List.nodup_append] at hnodup
    exact fun hmem => hnodup.2.2 _ hmem _ (by simp) rfl
  | cancel id => trivial
  | nextAssignment => trivial

/-- **Scheduler conservation and order**, at every state of a run in which the enqueued ids are distinct. -/
theorem scheduler_conserves (acts : List Act) (hdistinct : ((enqueues acts).map Pending.invocationId).Nodup)
    (pre : List Act) (hpre : pre <+: acts) :
    (pre.foldl step start).enqueued = enqueues pre ∧ Conserves (pre.foldl step start) := by
  refine ⟨enqueued_run pre start, ?_⟩
  exact ((along_fresh hdistinct).invariant (I := Inv) (fun _ _ hi hfresh => hi.step hfresh) inv_start hpre).conserves

/-- An invocation of `resize-helper` with this id. -/
def samplePending (id : InvocationId) : Pending :=
  { invocationId := id, tenant := ⟨str "tenant-a", by decide⟩, functionName := ⟨str "resize-helper", by decide⟩
    qualifier := ⟨str "prod", by decide⟩, eventJson := str "null", deadlineMs := 5000, enqueueTimeMs := 0 }

/-- Of three invocations the second is cancelled while all of them wait; the others are assigned, the first before
the third. -/
theorem scheduler_conserves_sample :
    ∃ a b c, let acts := [Act.enqueue a, .enqueue b, .enqueue c, .cancel b.invocationId, .nextAssignment, .nextAssignment]
      Conserves ((acts.take 4).foldl step start) ∧ ((acts.take 4).foldl step start).scheduler.queue = [a, c] ∧
      Conserves ((acts.take 5).foldl step start) ∧ ((acts.take 5).foldl step start).assigned = [a] ∧
      Conserves (acts.foldl step start) ∧ (acts.foldl step start).assigned = [a, c] := by
  have hruns := scheduler_conserves [.enqueue (samplePending ⟨str "inv-1", by decide⟩),
    .enqueue (samplePending ⟨str "inv-2", by decide⟩), .enqueue (samplePending ⟨str "inv-3", by decide⟩),
    .cancel ⟨str "inv-2", by decide⟩, .nextAssignment, .nextAssignment] (by decide)
  exact ⟨_, _, _, (hruns _ (List.take_prefix 4 _)).2, rfl, (hruns _ (List.take_prefix 5 _)).2, rfl,
    (hruns _ (List.prefix_refl _)).2, rfl⟩

end History
end Scheduler
end MirageLambda
