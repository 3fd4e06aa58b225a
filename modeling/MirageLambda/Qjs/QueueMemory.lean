import MirageLambda.Lib.Run
import MirageLambda.Qjs.HostQueue

/-!
# The host request queue in memory (qjs/c/qjs_host_queue.c)

`HostQueue` has the bytes of a payload in the request. Here a request has the pointer, every operation says which
payloads it frees, and `destroy` frees what is left in the slots; `viewIn` reads the payloads off the heap and
gives the `HostQueue` back.

`Fifo` is what the queue is for: a log of the requests that were accepted, of which the oldest `taken` were handed
out. `QueueMemory.refines_fifo` is the refinement, over any sequence of pushes and takes.
-/

namespace MirageLambda.Qjs
open OCaml

/-- What `malloc` returns. -/
abbrev Pointer := Nat

/-- `char operation[MLQJS_MAX_OP_LEN]`: a terminated string of at most 63 bytes. -/
structure Operation where
  bytes : Str
  short : bytes.length < 64
  terminated : ∀ c ∈ bytes, c ≠ 0
deriving DecidableEq

namespace Operation

theorem mem_cString {s : Str} {c : UInt8} (h : c ∈ cString s) : c ≠ 0 := by
  simpa using List.mem_takeWhile_imp h

/-- The copy of a C string that `req_set` makes; a null pointer counts as the empty string. -/
def copy (op : Option Str) : Operation where
  bytes := (cString (op.getD [])).take 63
  short := by
    rw [List.length_take]
    omega
  terminated c hc := mem_cString (List.mem_of_mem_take hc)

/-- Copied once more it stays as it is. -/
@[simp] theorem copy_bytes (o : Operation) : copy (some o.bytes) = o := by
  obtain ⟨bytes, hshort, hterminated⟩ := o
  have hbytes : (cString bytes).take 63 = bytes := by
    rw [cString_eq_self hterminated]
    exact List.take_of_length_le (by omega)
  simp only [copy, Option.getD_some, hbytes]

end Operation

/-- `mlqjs_request` (qjs_host_queue.h:18). -/
structure Slot where
  id : UInt64
  operation : Operation
  payload : Option Pointer
  payloadLen : UInt64
deriving DecidableEq

namespace Slot

/-- `req_set` (qjs_host_queue.c:26). -/
def reqSet (id : UInt64) (op : Option Str) (payload : Option Pointer) (payloadLen : UInt64) : Slot :=
  { id, operation := Operation.copy op, payload, payloadLen }

/-- What `memset` leaves. -/
def zero : Slot := reqSet 0 none none 0

/-- What `take` leaves in the slot (qjs_host_queue.c:65-67). -/
def cleared (r : Slot) : Slot := { r with id := 0, payload := none, payloadLen := 0 }

end Slot

/-- `mlqjs_host_queue` (qjs_host_queue.h:25), with `MLQJS_QUEUE_CAP` slots. -/
structure QueueMemory where
  ring : RingBuffer 255 Slot
  nextId : UInt64

namespace QueueMemory

def zeroed : QueueMemory := { ring := .blank Slot.zero, nextId := 0 }

/-- `mlqjs_host_queue_init` (qjs_host_queue.c:11). -/
def init : QueueMemory := { zeroed with nextId := 1 }

/-- `mlqjs_host_queue_push` (qjs_host_queue.c:39): the id and what was freed. -/
def push (q : QueueMemory) (op : Option Str) (payload : Option Pointer) (payloadLen : UInt64) :
    (UInt64 × Option Pointer) × QueueMemory :=
  match q.ring.push (Slot.reqSet q.nextId op payload payloadLen) with
  | none => ((0, payload), q)
  | some ring => ((q.nextId, none), { ring, nextId := q.nextId + 1 })

/-- `mlqjs_host_queue_take` (qjs_host_queue.c:55). -/
def take (q : QueueMemory) : Option Slot × QueueMemory :=
  match RingBuffer.pop Slot.cleared q.ring with
  | none => (none, q)
  | some (src, ring) =>
    (some (Slot.reqSet src.id (some src.operation.bytes) src.payload src.payloadLen), { q with ring })

/-- `mlqjs_host_queue_destroy` (qjs_host_queue.c:17): what it frees, in the order of the slots. -/
def destroy (q : QueueMemory) : List Pointer × QueueMemory :=
  ((List.finRange (255 + 1)).filterMap fun i => (q.ring.slots i).payload, zeroed)

/-- `mlqjs_host_queue_count` (qjs_host_queue.c:71). -/
def count (q : QueueMemory) : Nat := q.ring.count

theorem take_of_pop {q : QueueMemory} {src : Slot} {ring : RingBuffer 255 Slot}
    (h : RingBuffer.pop Slot.cleared q.ring = some (src, ring)) : q.take = (some src, { q with ring }) := by
  unfold take
  rw [h]
  simp [Slot.reqSet]

/-! ## As a `HostQueue` -/

/-- The request with the bytes of its payload. -/
def requestIn (heap : Pointer → Str) (r : Slot) : Request :=
  { id := r.id, operation := r.operation.bytes, payload := (r.payload.map heap).getD [] }

def viewIn (heap : Pointer → Str) (q : QueueMemory) : HostQueue :=
  { ring := q.ring.map (requestIn heap), nextId := q.nextId }

/-- The requests that wait are the same. -/
theorem contents_viewIn (heap : Pointer → Str) (q : QueueMemory) :
    (viewIn heap q).contents = q.ring.contents.map (requestIn heap) := RingBuffer.contents_map _ _

theorem viewIn_init (heap : Pointer → Str) : viewIn heap init = HostQueue.init := rfl

theorem viewIn_push (heap : Pointer → Str) (q : QueueMemory) (op : Str) (payload : Pointer) (payloadLen : UInt64) :
    (viewIn heap q).push op (heap payload) =
      ((q.push (some op) (some payload) payloadLen).1.1,
        viewIn heap (q.push (some op) (some payload) payloadLen).2) := by
  have hpush := RingBuffer.push_map (requestIn heap) q.ring (Slot.reqSet q.nextId (some op) (some payload) payloadLen)
  have hrequest : requestIn heap (Slot.reqSet q.nextId (some op) (some payload) payloadLen) =
      Qjs.reqSet q.nextId op (heap payload) := rfl
  rw [hrequest] at hpush
  unfold HostQueue.push
  rw [viewIn, hpush, push]
  cases q.ring.push (Slot.reqSet q.nextId (some op) (some payload) payloadLen) with
  | none => rfl
  | some ring => rfl

/-- The loop that drains the queue returns the requests that it drains here. -/
theorem viewIn_takeAll (heap : Pointer → Str) (q : QueueMemory) :
    (viewIn heap q).takeAll =
      ((RingBuffer.drain Slot.cleared q.count q.ring).1.map (requestIn heap),
        viewIn heap { q with ring := (RingBuffer.drain Slot.cleared q.count q.ring).2 }) := by
  have hcleared : ∀ r, HostQueue.cleared (requestIn heap r) = requestIn heap (Slot.cleared r) := fun _ => rfl
  have hdrain := RingBuffer.drain_map (requestIn heap) hcleared q.count q.ring
  unfold HostQueue.takeAll
  rw [show (viewIn heap q).ring = q.ring.map (requestIn heap) from rfl,
    show (q.ring.map (requestIn heap)).count = q.count from rfl, hdrain]
  rfl

end QueueMemory

/-! ## The list it stands for -/

/-- The requests accepted so far, oldest first, and how many of them were taken. -/
structure Fifo where
  accepted : List Slot
  taken : Nat

namespace Fifo

def empty : Fifo := { accepted := [], taken := 0 }

def waiting (f : Fifo) : List Slot := f.accepted.drop f.taken

/-- At most 256 requests wait. The n-th accepted request gets the id n. -/
def push (f : Fifo) (op : Option Str) (payload : Option Pointer) (payloadLen : UInt64) :
    (UInt64 × Option Pointer) × Fifo :=
  if f.waiting.length < 256 then
    let id := UInt64.ofNat (f.accepted.length + 1)
    ((id, none), { f with accepted := f.accepted ++ [⟨id, Operation.copy op, payload, payloadLen⟩] })
  else ((0, payload), f)

def take (f : Fifo) : Option Slot × Fifo :=
  match f.accepted[f.taken]? with
  | none => (none, f)
  | some r => (some r, { f with taken := f.taken + 1 })

theorem waiting_eq_cons_of_getElem? {f : Fifo} {r : Slot} (h : f.accepted[f.taken]? = some r) :
    f.waiting = r :: f.accepted.drop (f.taken + 1) := by
  obtain ⟨hlt, hget⟩ := List.getElem?_eq_some_iff.1 h
  rw [waiting, List.drop_eq_getElem_cons hlt, hget]

theorem waiting_eq_nil_iff {f : Fifo} : f.waiting = [] ↔ f.accepted[f.taken]? = none := by
  rw [waiting, List.drop_eq_nil_iff, List.getElem?_eq_none_iff]

end Fifo

/-! ## Runs -/

/-- One call by the owner of the queue. -/
inductive QueueCall where
  | push (op : Option Str) (payload : Option Pointer) (payloadLen : UInt64)
  | take

inductive QueueAnswer where
  /-- The id, and the payload that was freed. -/
  | pushed (id : UInt64) (freed : Option Pointer)
  | taken (r : Option Slot)
deriving DecidableEq

namespace QueueCall

def payload? : QueueCall → Option Pointer
  | .push _ payload _ => payload
  | .take => none

def isPush : QueueCall → Bool
  | .push .. => true
  | .take => false

/-- The request of a push that was not refused. -/
def granted? : QueueCall × QueueAnswer → Option Slot
  | (.push op payload payloadLen, .pushed id _) =>
    if id = 0 then none else some ⟨id, Operation.copy op, payload, payloadLen⟩
  | _ => none

end QueueCall

namespace QueueAnswer

def freed? : QueueAnswer → Option Pointer
  | .pushed _ freed => freed
  | .taken _ => none

def request? : QueueAnswer → Option Slot
  | .pushed .. => none
  | .taken r => r

end QueueAnswer

def QueueMemory.call (q : QueueMemory) : QueueCall → QueueAnswer × QueueMemory
  | .push op payload payloadLen =>
    let r := q.push op payload payloadLen
    (.pushed r.1.1 r.1.2, r.2)
  | .take => (.taken q.take.1, q.take.2)

def Fifo.call (f : Fifo) : QueueCall → QueueAnswer × Fifo
  | .push op payload payloadLen =>
    let r := f.push op payload payloadLen
    (.pushed r.1.1 r.1.2, r.2)
  | .take => (.taken f.take.1, f.take.2)

/-! ## The representation -/

/-- The ring holds what waits, and a slot outside the live window holds no payload. -/
structure Represents (q : QueueMemory) (f : Fifo) : Prop where
  wf : q.ring.WF
  contents : q.ring.contents = f.waiting
  vacant : q.ring.Vacant fun r => r.payload = none
  nextId : q.nextId = UInt64.ofNat (f.accepted.length + 1)
  taken_le : f.taken ≤ f.accepted.length

namespace Represents

variable {q : QueueMemory} {f : Fifo}

theorem count (h : Represents q f) : q.count = f.waiting.length := by
  rw [← h.contents, RingBuffer.length_contents]
  rfl

theorem init : Represents QueueMemory.init Fifo.empty where
  wf := RingBuffer.wf_blank _
  contents := RingBuffer.contents_blank _
  vacant _ _ := rfl
  nextId := rfl
  taken_le := Nat.le_refl 0

theorem push (h : Represents q f) (op : Option Str) (payload : Option Pointer) (payloadLen : UInt64) :
    (q.push op payload payloadLen).1 = (f.push op payload payloadLen).1 ∧
      Represents (q.push op payload payloadLen).2 (f.push op payload payloadLen).2 := by
  have hcount := h.count
  unfold QueueMemory.push Fifo.push
  cases hpush : q.ring.push (Slot.reqSet q.nextId op payload payloadLen) with
  | none =>
    rw [RingBuffer.push_eq_none] at hpush
    rw [if_neg (by unfold QueueMemory.count at hcount; omega)]
    exact ⟨rfl, h⟩
  | some ring =>
    have hroom : ¬ 256 ≤ q.ring.count := by
      rw [← RingBuffer.push_eq_none (x := Slot.reqSet q.nextId op payload payloadLen), hpush]
      simp
    rw [if_pos (by unfold QueueMemory.count at hcount; omega)]
    refine ⟨by rw [h.nextId], ?_⟩
    exact
      { wf := h.wf.push hpush
        contents := by
          rw [RingBuffer.contents_push h.wf hpush, h.contents, Fifo.waiting, Fifo.waiting,
            List.drop_append_of_le_length h.taken_le, Slot.reqSet, h.nextId]
        vacant := h.vacant.push h.wf hpush
        nextId := by
          simp only [List.length_append, List.length_singleton]
          rw [h.nextId, ← UInt64.ofNat_one, ← UInt64.ofNat_add]
        taken_le := by
          have := h.taken_le
          simp only [List.length_append, List.length_singleton]
          omega }

theorem take (h : Represents q f) : q.take.1 = f.take.1 ∧ Represents q.take.2 f.take.2 := by
  unfold Fifo.take
  cases hpop : RingBuffer.pop Slot.cleared q.ring with
  | none =>
    have hempty : f.waiting = [] := by
      rw [RingBuffer.pop_eq_none] at hpop
      rw [← h.contents]
      exact List.eq_nil_of_length_eq_zero (by rw [RingBuffer.length_contents, hpop])
    rw [QueueMemory.take, hpop, Fifo.waiting_eq_nil_iff.1 hempty]
    exact ⟨rfl, h⟩
  | some p =>
    obtain ⟨src, ring⟩ := p
    have hcontents := RingBuffer.contents_pop h.wf hpop
    rw [h.contents] at hcontents
    cases hget : f.accepted[f.taken]? with
    | none =>
      rw [Fifo.waiting_eq_nil_iff.2 hget] at hcontents
      cases hcontents
    | some r =>
      rw [Fifo.waiting_eq_cons_of_getElem? hget, List.cons.injEq] at hcontents
      obtain ⟨rfl, hrest⟩ := hcontents
      rw [QueueMemory.take_of_pop hpop]
      refine ⟨rfl, ?_⟩
      exact
        { wf := h.wf.pop hpop
          contents := hrest.symm
          vacant := RingBuffer.Vacant.pop (p := fun r => r.payload = none) (fun _ => rfl) h.vacant hpop
          nextId := h.nextId
          taken_le := (List.getElem?_eq_some_iff.1 hget).1 }

theorem call (h : Represents q f) (c : QueueCall) :
    (q.call c).1 = (f.call c).1 ∧ Represents (q.call c).2 (f.call c).2 := by
  cases c with
  | push op payload payloadLen =>
    obtain ⟨hanswer, hnext⟩ := h.push op payload payloadLen
    refine ⟨?_, hnext⟩
    simp only [QueueMemory.call, Fifo.call]
    rw [hanswer]
  | take =>
    obtain ⟨hanswer, hnext⟩ := h.take
    refine ⟨?_, hnext⟩
    simp only [QueueMemory.call, Fifo.call]
    rw [hanswer]

/-- `destroy` frees the payloads of the requests that wait, each once. -/
theorem destroy (h : Represents q f) : q.destroy.1.Perm (f.waiting.filterMap Slot.payload) := by
  rw [← h.contents]
  exact RingBuffer.filterMap_slots_perm (f := Slot.payload) h.wf h.vacant

end Represents

/-! ## What one call does to the list -/

namespace Fifo

variable {f : Fifo}

theorem call_cases (f : Fifo) (c : QueueCall) :
    (∃ op payload payloadLen, c = .push op payload payloadLen ∧ f.waiting.length < 256 ∧
      f.call c = (.pushed (UInt64.ofNat (f.accepted.length + 1)) none,
        { f with accepted := f.accepted ++
          [⟨UInt64.ofNat (f.accepted.length + 1), Operation.copy op, payload, payloadLen⟩] })) ∨
    (∃ op payload payloadLen, c = .push op payload payloadLen ∧ 256 ≤ f.waiting.length ∧
      f.call c = (.pushed 0 payload, f)) ∨
    (c = .take ∧ f.accepted[f.taken]? = none ∧ f.call c = (.taken none, f)) ∨
    (∃ r, c = .take ∧ f.accepted[f.taken]? = some r ∧ f.call c = (.taken (some r), { f with taken := f.taken + 1 })) := by
  cases c with
  | push op payload payloadLen =>
    by_cases hroom : f.waiting.length < 256
    · exact Or.inl ⟨op, payload, payloadLen, rfl, hroom, by simp only [call, push, if_pos hroom]⟩
    · refine Or.inr (Or.inl ⟨op, payload, payloadLen, rfl, not_lt.1 hroom, ?_⟩)
      simp only [call, push, if_neg hroom]
  | take =>
    cases hget : f.accepted[f.taken]? with
    | none => exact Or.inr (Or.inr (Or.inl ⟨rfl, rfl, by simp only [call, take, hget]⟩))
    | some r => exact Or.inr (Or.inr (Or.inr ⟨r, rfl, rfl, by simp only [call, take, hget]⟩))

/-- No more requests wait than the ring has slots, no more were taken than accepted, and the ids count from 1. -/
structure Inv (f : Fifo) : Prop where
  waiting_le : f.waiting.length ≤ 256
  taken_le : f.taken ≤ f.accepted.length
  ids : f.accepted.map Slot.id = (List.range' 1 f.accepted.length).map UInt64.ofNat

theorem inv_empty : Inv empty := ⟨by simp [waiting, empty], Nat.le_refl 0, rfl⟩

theorem Inv.call (h : Inv f) (c : QueueCall) : Inv (f.call c).2 := by
  have hwaiting := h.waiting_le
  have htaken := h.taken_le
  obtain ⟨op, payload, payloadLen, rfl, hroom, hcall⟩ | ⟨op, payload, payloadLen, rfl, -, hcall⟩ |
    ⟨rfl, -, hcall⟩ | ⟨r, rfl, hget, hcall⟩ := call_cases f c
  · rw [hcall]
    refine ⟨?_, ?_, ?_⟩
    · simp only [waiting, List.length_drop, List.length_append, List.length_singleton] at hroom ⊢
      omega
    · simp only [List.length_append, List.length_singleton]
      omega
    · simp only [List.map_append, List.map_singleton, List.length_append, List.length_singleton]
      rw [h.ids, List.range'_concat, List.map_append, List.map_singleton, Nat.one_mul, Nat.add_comm 1]
  · rw [hcall]
    exact h
  · rw [hcall]
    exact h
  · rw [hcall]
    refine ⟨?_, (List.getElem?_eq_some_iff.1 hget).1, h.ids⟩
    simp only [waiting, List.length_drop] at hwaiting ⊢
    omega

/-- The log grows by the push that was granted, as long as the counter has not wrapped. -/
theorem accepted_call {c : QueueCall} (hids : f.accepted.length + (if c.isPush then 1 else 0) < 2 ^ 64) :
    (f.call c).2.accepted = f.accepted ++ (QueueCall.granted? (c, (f.call c).1)).toList := by
  obtain ⟨op, payload, payloadLen, rfl, -, hcall⟩ | ⟨op, payload, payloadLen, rfl, -, hcall⟩ |
    ⟨rfl, -, hcall⟩ | ⟨r, rfl, -, hcall⟩ := call_cases f c
  · have hid : UInt64.ofNat (f.accepted.length + 1) ≠ 0 := by
      intro hzero
      have hnat := congrArg UInt64.toNat hzero
      rw [UInt64.toNat_ofNat_of_lt' (by simpa [QueueCall.isPush] using hids)] at hnat
      cases hnat
    rw [hcall]
    simp only [QueueCall.granted?, if_neg hid, Option.toList_some]
  · rw [hcall]
    simp [QueueCall.granted?]
  · rw [hcall]
    simp [QueueCall.granted?]
  · rw [hcall]
    simp [QueueCall.granted?]

theorem length_accepted_call_le (f : Fifo) (c : QueueCall) :
    (f.call c).2.accepted.length ≤ f.accepted.length + (if c.isPush then 1 else 0) := by
  obtain ⟨op, payload, payloadLen, rfl, -, hcall⟩ | ⟨op, payload, payloadLen, rfl, -, hcall⟩ |
    ⟨rfl, -, hcall⟩ | ⟨r, rfl, -, hcall⟩ := call_cases f c <;>
  · rw [hcall]
    simp [QueueCall.isPush]

/-- The taken part of the log grows by what a take returns. -/
theorem taken_call (h : f.taken ≤ f.accepted.length) (c : QueueCall) :
    (f.call c).2.accepted.take (f.call c).2.taken = f.accepted.take f.taken ++ (f.call c).1.request?.toList := by
  obtain ⟨op, payload, payloadLen, rfl, -, hcall⟩ | ⟨op, payload, payloadLen, rfl, -, hcall⟩ |
    ⟨rfl, -, hcall⟩ | ⟨r, rfl, hget, hcall⟩ := call_cases f c
  · rw [hcall]
    simp only [QueueAnswer.request?, Option.toList_none, List.append_nil]
    exact List.take_append_of_le_length h
  · rw [hcall]
    simp [QueueAnswer.request?]
  · rw [hcall]
    simp [QueueAnswer.request?]
  · rw [hcall]
    simp only [QueueAnswer.request?, List.take_add_one, hget]

/-- A payload waits with its request, or is freed at once. -/
theorem payload_call (h : f.taken ≤ f.accepted.length) (c : QueueCall) :
    (f.waiting.filterMap Slot.payload ++ c.payload?.toList).Perm
      ((f.call c).1.freed?.toList ++ (f.call c).1.request?.toList.filterMap Slot.payload ++
        (f.call c).2.waiting.filterMap Slot.payload) := by
  obtain ⟨op, payload, payloadLen, rfl, -, hcall⟩ | ⟨op, payload, payloadLen, rfl, -, hcall⟩ |
    ⟨rfl, -, hcall⟩ | ⟨r, rfl, hget, hcall⟩ := call_cases f c
  · have hwaiting : waiting { f with accepted := f.accepted ++
        [⟨UInt64.ofNat (f.accepted.length + 1), Operation.copy op, payload, payloadLen⟩] } =
        f.waiting ++ [⟨UInt64.ofNat (f.accepted.length + 1), Operation.copy op, payload, payloadLen⟩] :=
      List.drop_append_of_le_length h
    rw [hcall]
    simp only []
    rw [hwaiting, List.filterMap_append]
    cases payload <;> simp [QueueCall.payload?, QueueAnswer.freed?, QueueAnswer.request?]
  · rw [hcall]
    simpa [QueueCall.payload?, QueueAnswer.freed?, QueueAnswer.request?] using List.perm_append_comm
  · rw [hcall]
    simp [QueueCall.payload?, QueueAnswer.freed?, QueueAnswer.request?]
  · rw [hcall, waiting_eq_cons_of_getElem? hget]
    cases hpayload : r.payload <;>
      simp [hpayload, waiting, QueueCall.payload?, QueueAnswer.freed?, QueueAnswer.request?]

end Fifo

/-! ## Runs -/

open Run

/-- The requests of the pushes that were not refused, in the order of the pushes, with the ids returned. -/
def granted (calls : List QueueCall) (answers : List QueueAnswer) : List Slot :=
  (calls.zip answers).filterMap QueueCall.granted?

/-- What the takes returned. -/
def requests (answers : List QueueAnswer) : List Slot := answers.filterMap QueueAnswer.request?

/-- What the pushes freed. -/
def freed (answers : List QueueAnswer) : List Pointer := answers.filterMap QueueAnswer.freed?

/-- The payloads whose ownership the pushes took. -/
def payloads (calls : List QueueCall) : List Pointer := calls.filterMap QueueCall.payload?

theorem filterMap_cons_eq {α β : Type} (g : α → Option β) (a : α) (as : List α) :
    (a :: as).filterMap g = (g a).toList ++ as.filterMap g := by
  cases h : g a <;> simp [h]

namespace Fifo

theorem accepted_exec (calls : List QueueCall) {f : Fifo}
    (hids : f.accepted.length + calls.countP QueueCall.isPush < 2 ^ 64) :
    (exec call f calls).2.accepted = f.accepted ++ granted calls (exec call f calls).1 := by
  induction calls generalizing f with
  | nil => simp [exec, granted]
  | cons c calls ih =>
    rw [List.countP_cons] at hids
    have hlen := length_accepted_call_le f c
    have hstep := accepted_call (f := f) (c := c) (by omega)
    have hrest := ih (f := (f.call c).2) (by omega)
    simp only [exec]
    rw [hrest, hstep, List.append_assoc]
    simp only [granted]
    rw [List.zip_cons_cons, filterMap_cons_eq]

theorem length_accepted_exec_le (calls : List QueueCall) (f : Fifo) :
    (exec call f calls).2.accepted.length ≤ f.accepted.length + calls.countP QueueCall.isPush := by
  induction calls generalizing f with
  | nil => exact Nat.le_add_right _ _
  | cons c calls ih =>
    have hlen := length_accepted_call_le f c
    have hrest := ih (f.call c).2
    rw [List.countP_cons]
    simp only [exec]
    omega

theorem taken_exec (calls : List QueueCall) {f : Fifo} (h : Inv f) :
    (exec call f calls).2.accepted.take (exec call f calls).2.taken =
      f.accepted.take f.taken ++ requests (exec call f calls).1 := by
  induction calls generalizing f with
  | nil => simp [exec, requests]
  | cons c calls ih =>
    simp only [exec]
    rw [ih (h.call c), taken_call h.taken_le, requests, requests, filterMap_cons_eq, List.append_assoc]

theorem payloads_exec (calls : List QueueCall) {f : Fifo} (h : Inv f) :
    (f.waiting.filterMap Slot.payload ++ payloads calls).Perm
      (freed (exec call f calls).1 ++ (requests (exec call f calls).1).filterMap Slot.payload ++
        (exec call f calls).2.waiting.filterMap Slot.payload) := by
  induction calls generalizing f with
  | nil => simp [exec, payloads, freed, requests]
  | cons c calls ih =>
    have hstep := payload_call h.taken_le c
    have hrest := ih (h.call c)
    simp only [exec]
    rw [payloads, filterMap_cons_eq, freed, filterMap_cons_eq, requests, filterMap_cons_eq, List.filterMap_append]
    refine List.perm_iff_count.2 fun p => ?_
    have hcount := hstep.count_eq p
    have hcounts := hrest.count_eq p
    simp only [payloads, freed, requests, List.count_append] at hcount hcounts ⊢
    omega

end Fifo

/-- **A bounded FIFO**, as the owner of the queue sees it after some calls. -/
structure BoundedFifo (calls : List QueueCall) (answers : List QueueAnswer) (q : QueueMemory) : Prop where
  /-- Every push returned a greater id than the ones before it. -/
  ids : (granted calls answers).map (fun r => r.id.toNat) = List.range' 1 (granted calls answers).length
  /-- The takes returned what was pushed, as it was pushed and in that order; the rest waits. -/
  order : granted calls answers = requests answers ++ q.ring.contents
  count : q.count = q.ring.contents.length
  capacity : q.count ≤ 256
  push_full : q.count = 256 → ∀ op payload payloadLen, q.push op payload payloadLen = ((0, payload), q)
  push_room : q.count < 256 → ∀ op payload payloadLen,
    (q.push op payload payloadLen).1 = (UInt64.ofNat ((granted calls answers).length + 1), none) ∧
      (q.push op payload payloadLen).2.ring.contents =
        q.ring.contents ++ [Slot.reqSet q.nextId op payload payloadLen]
  take_next : q.take.1 = q.ring.contents.head? ∧ q.take.2.ring.contents = q.ring.contents.tail
  vacant : q.ring.Vacant fun r => r.payload = none
  /-- A payload was freed by its push, or went out with its request, or `destroy` frees it: one of them, once. -/
  ownership : (payloads calls).Perm (freed answers ++ (requests answers).filterMap Slot.payload ++ q.destroy.1)

namespace Represents

variable {q : QueueMemory} {f : Fifo} {calls : List QueueCall} {answers : List QueueAnswer}

theorem push_of_room (h : Represents q f) (hroom : q.count < 256) (op : Option Str) (payload : Option Pointer)
    (payloadLen : UInt64) :
    (q.push op payload payloadLen).1 = (UInt64.ofNat (f.accepted.length + 1), none) ∧
      (q.push op payload payloadLen).2.ring.contents =
        q.ring.contents ++ [Slot.reqSet q.nextId op payload payloadLen] := by
  obtain ⟨hanswer, -⟩ := h.push op payload payloadLen
  rw [h.count] at hroom
  refine ⟨by rw [hanswer, Fifo.push, if_pos hroom], ?_⟩
  unfold QueueMemory.push
  cases hpush : q.ring.push (Slot.reqSet q.nextId op payload payloadLen) with
  | none =>
    rw [RingBuffer.push_eq_none] at hpush
    have hcount := h.count
    unfold QueueMemory.count at hcount
    omega
  | some ring => exact RingBuffer.contents_push h.wf hpush

theorem push_of_full (hfull : q.count = 256) (op : Option Str) (payload : Option Pointer) (payloadLen : UInt64) :
    q.push op payload payloadLen = ((0, payload), q) := by
  unfold QueueMemory.push
  rw [RingBuffer.push_eq_none.2 (le_of_eq hfull.symm)]

theorem take_next (h : Represents q f) :
    q.take.1 = q.ring.contents.head? ∧ q.take.2.ring.contents = q.ring.contents.tail := by
  cases hpop : RingBuffer.pop Slot.cleared q.ring with
  | none =>
    rw [QueueMemory.take, hpop]
    rw [RingBuffer.pop_eq_none] at hpop
    have hnil : q.ring.contents = [] := List.eq_nil_of_length_eq_zero (by rw [RingBuffer.length_contents, hpop])
    simp only [hnil]
    exact ⟨rfl, rfl⟩
  | some p =>
    obtain ⟨src, ring⟩ := p
    rw [QueueMemory.take_of_pop hpop, RingBuffer.contents_pop h.wf hpop]
    exact ⟨rfl, rfl⟩

theorem boundedFifo (h : Represents q f) (hinv : f.Inv) (hlen : f.accepted.length < 2 ^ 64)
    (haccepted : f.accepted = granted calls answers) (htaken : f.accepted.take f.taken = requests answers)
    (hpayloads : (payloads calls).Perm (freed answers ++ (requests answers).filterMap Slot.payload ++
      f.waiting.filterMap Slot.payload)) : BoundedFifo calls answers q where
  ids := by
    have hids := congrArg (List.map UInt64.toNat) hinv.ids
    rw [List.map_map, List.map_map] at hids
    have hexact : ∀ n ∈ List.range' 1 f.accepted.length, (UInt64.toNat ∘ UInt64.ofNat) n = n := by
      intro n hn
      rw [List.mem_range'_1] at hn
      exact UInt64.toNat_ofNat_of_lt' (show n < 2 ^ 64 by omega)
    rw [← haccepted]
    exact hids.trans ((List.map_congr_left hexact).trans (List.map_id' _))
  order := by
    rw [← haccepted, ← htaken, h.contents]
    exact (List.take_append_drop _ _).symm
  count := RingBuffer.length_contents q.ring |>.symm
  capacity := by
    rw [h.count]
    exact hinv.waiting_le
  push_full := push_of_full
  push_room hroom := by
    rw [← haccepted]
    exact h.push_of_room hroom
  take_next := h.take_next
  vacant := h.vacant
  ownership := hpayloads.trans (h.destroy.symm.append_left _)

end Represents

/-- **The host request queue refines a bounded FIFO.** Fewer than 2^64 pushes do not exhaust the ids. -/
theorem QueueMemory.refines_fifo (calls : List QueueCall) (hpushes : calls.countP QueueCall.isPush < 2 ^ 64) :
    (exec QueueMemory.call QueueMemory.init calls).1 = (exec Fifo.call Fifo.empty calls).1 ∧
      Represents (exec QueueMemory.call QueueMemory.init calls).2 (exec Fifo.call Fifo.empty calls).2 ∧
      BoundedFifo calls (exec QueueMemory.call QueueMemory.init calls).1
        (exec QueueMemory.call QueueMemory.init calls).2 := by
  obtain ⟨hanswers, hrep⟩ := exec_refines (fun _ _ c h => h.call c) Represents.init calls
  have hlen := Fifo.length_accepted_exec_le calls Fifo.empty
  have hinv := exec_invariant (f := Fifo.call) (I := Fifo.Inv) (fun _ c h => h.call c) Fifo.inv_empty calls
  refine ⟨hanswers, hrep, ?_⟩
  rw [hanswers]
  refine hrep.boundedFifo hinv (hlen.trans_lt ?_) ?_ ?_ ?_
  · simpa [Fifo.empty] using hpushes
  · exact Fifo.accepted_exec calls (by simpa [Fifo.empty] using hpushes)
  · exact Fifo.taken_exec calls Fifo.inv_empty
  · exact Fifo.payloads_exec calls Fifo.inv_empty

/-- Two requests with payloads at 10 and 20: the first is taken, the second is freed by `destroy`. -/
theorem QueueMemory.refines_fifo_two :
    BoundedFifo [.push (some (str "kv.get")) (some 10) 4, .push (some (str "host.rpc")) (some 20) 2, .take]
      [.pushed 1 none, .pushed 2 none, .taken (some ⟨1, Operation.copy (some (str "kv.get")), some 10, 4⟩)]
      (exec QueueMemory.call QueueMemory.init [.push (some (str "kv.get")) (some 10) 4,
        .push (some (str "host.rpc")) (some 20) 2, .take]).2 :=
  (QueueMemory.refines_fifo [.push (some (str "kv.get")) (some 10) 4, .push (some (str "host.rpc")) (some 20) 2, .take]
    (by decide)).2.2

end MirageLambda.Qjs
