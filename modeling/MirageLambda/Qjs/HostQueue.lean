import Mathlib.Data.List.TakeWhile
import MirageLambda.Lib.RingBuffer
import MirageLambda.Lib.Str

/-!
# The host request queue (qjs/c/qjs_host_queue.c)

A bounded ring of requests, numbered from 1 by a 64-bit counter of the queue itself. The ring is
`RingBuffer`; `contents` of it is the queue, oldest request first.
-/

namespace MirageLambda.Qjs
open OCaml

/-- `mlqjs_request` (qjs_host_queue.h:18). -/
structure Request where
  id : UInt64
  operation : Str
  payload : Str
deriving DecidableEq, Repr

/-- A C string: what `strlen` sees of it. -/
def cString (s : Str) : Str := s.takeWhile (· ≠ 0)

theorem cString_eq_self {s : Str} (h : ∀ c ∈ s, c ≠ 0) : cString s = s := by
  rw [cString, List.takeWhile_eq_self_iff]
  intro c hc
  simpa using h c hc

/-- `req_set` (qjs_host_queue.c:26): the operation is cut at `MLQJS_MAX_OP_LEN - 1`. -/
def reqSet (id : UInt64) (op payload : Str) : Request :=
  { id, operation := (cString op).take 63, payload }

/-- `mlqjs_host_queue`, with `MLQJS_QUEUE_CAP` slots. -/
structure HostQueue where
  ring : RingBuffer 255 Request
  nextId : UInt64

namespace HostQueue

/-- `mlqjs_host_queue_init` (qjs_host_queue.c:11). -/
def init : HostQueue :=
  { ring := { slots := fun _ => ⟨0, [], []⟩, head := 0, tail := 0, count := 0 }, nextId := 1 }

/-- `mlqjs_host_queue_push` (qjs_host_queue.c:39): the id, or 0 when the queue is full. -/
def push (q : HostQueue) (op payload : Str) : UInt64 × HostQueue :=
  match q.ring.push (reqSet q.nextId op payload) with
  | none => (0, q)
  | some ring => (q.nextId, { ring, nextId := q.nextId + 1 })

/-- What `take` leaves in the slot (qjs_host_queue.c:60-62). -/
def cleared (r : Request) : Request := { r with id := 0, payload := [] }

/-- The loop of `mlqjs_take_requests` over `mlqjs_host_queue_take` (qjs_stubs.c:589-598). -/
def takeAll (q : HostQueue) : List Request × HostQueue :=
  let (rs, ring) := RingBuffer.drain cleared q.ring.count q.ring
  (rs, { q with ring })

/-- The requests waiting, oldest first. -/
def contents (q : HostQueue) : List Request := q.ring.contents

def WF (q : HostQueue) : Prop := q.ring.WF

theorem wf_init : init.WF := ⟨by simp [init], by simp [init, Fin.ofNat]⟩

theorem WF.push {q : HostQueue} (hwf : q.WF) (op payload : Str) : (q.push op payload).2.WF := by
  unfold HostQueue.push
  split
  · exact hwf
  · rename_i ring h
    exact RingBuffer.WF.push hwf h

/-- A push is lost exactly when 256 requests are waiting. -/
theorem contents_push {q : HostQueue} (hwf : q.WF) (op payload : Str) :
    (q.push op payload).2.contents =
      if q.contents.length < 256 then q.contents ++ [reqSet q.nextId op payload] else q.contents := by
  have hlen : q.contents.length = q.ring.count := RingBuffer.length_contents _
  unfold HostQueue.push
  split
  · rename_i h
    rw [RingBuffer.push_eq_none] at h
    rw [if_neg (by omega)]
  · rename_i ring h
    have hne : q.ring.push (reqSet q.nextId op payload) ≠ none := by rw [h]; simp
    rw [ne_eq, RingBuffer.push_eq_none] at hne
    rw [if_pos (by omega)]
    exact RingBuffer.contents_push hwf h

/-- Draining returns everything that waits and leaves nothing. -/
theorem takeAll_eq {q : HostQueue} (hwf : q.WF) :
    q.takeAll.1 = q.contents ∧ q.takeAll.2.contents = [] ∧ q.takeAll.2.WF := by
  obtain ⟨h1, h2, h3⟩ := RingBuffer.drain_eq cleared hwf
  refine ⟨h1, List.eq_nil_of_length_eq_zero ?_, h3⟩
  rw [contents, RingBuffer.length_contents]
  exact h2

end HostQueue
end MirageLambda.Qjs
