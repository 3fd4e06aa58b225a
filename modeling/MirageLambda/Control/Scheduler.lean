import MirageLambda.Common.Protocol

/-!
# The scheduler (control/scheduler.ml)

A list of pending invocations, oldest first.
-/

namespace MirageLambda
open OCaml

namespace Scheduler

/-- `pending` (scheduler.ml:6). -/
structure Pending where
  invocationId : InvocationId
  tenant : TenantId
  functionName : FunctionName
  qualifier : Qualifier
  eventJson : Str
  deadlineMs : Int64
  enqueueTimeMs : Int64

end Scheduler

/-- `Scheduler.t` (scheduler.ml:19). -/
structure Scheduler where
  queue : List Scheduler.Pending

namespace Scheduler

/-- `make` (scheduler.ml:23). -/
def make : Scheduler := ⟨[]⟩

/-- `enqueue` (scheduler.ml:25). -/
def enqueue (t : Scheduler) (p : Pending) : Scheduler := { t with queue := t.queue ++ [p] }

/-- The answer of `cancel`. -/
inductive Cancelled where
  | absent | removed
deriving DecidableEq, Repr

/-- `cancel` (scheduler.ml:29). -/
def cancel (t : Scheduler) (invocationId : InvocationId) : Cancelled × Scheduler :=
  let before := t.queue
  let t := { t with queue := t.queue.filter fun p => !(p.invocationId == invocationId) }
  (if before.length = t.queue.length then .absent else .removed, t)

/-- `next_assignment` (scheduler.ml:37). -/
def nextAssignment (t : Scheduler) : Option Pending × Scheduler :=
  match t.queue with
  | [] => (none, t)
  | head :: rest => (some head, { t with queue := rest })

/-- `queue_size` (scheduler.ml:42). -/
def queueSize (t : Scheduler) : Nat := t.queue.length

/-- The ids that wait. -/
def ids (t : Scheduler) : List InvocationId := t.queue.map Pending.invocationId

theorem ids_enqueue (t : Scheduler) (p : Pending) : (t.enqueue p).ids = t.ids ++ [p.invocationId] := by
  simp [ids, enqueue]

theorem ids_cancel_sublist (t : Scheduler) (id : InvocationId) : (t.cancel id).2.ids.Sublist t.ids :=
  List.filter_sublist.map _

theorem ids_nextAssignment_sublist (t : Scheduler) : t.nextAssignment.2.ids.Sublist t.ids := by
  obtain ⟨queue⟩ := t
  cases queue with
  | nil => exact List.Sublist.refl _
  | cons head rest => exact List.sublist_cons_self _ _

/-- `cancel` takes out every invocation with this id: as many as the id occurs. -/
theorem length_cancel (t : Scheduler) (id : InvocationId) :
    (t.cancel id).2.queue.length + t.ids.count id = t.queue.length := by
  unfold cancel ids
  simp only []
  induction t.queue with
  | nil => rfl
  | cons p rest ih =>
    by_cases h : p.invocationId = id
    · simp [h]
      omega
    · simp [h]
      omega

end Scheduler
end MirageLambda
