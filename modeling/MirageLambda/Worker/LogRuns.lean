import MirageLambda.Lib.Packing
import MirageLambda.Lib.Run
import MirageLambda.Worker.RuntimeHost

/-!
# What is left in the log (worker/host_log.ml, capability_broker.ml:32-42)

`append` keeps an event if its bytes fit in what is left of `max_bytes`, and otherwise only marks the log; a smaller
event after one that was dropped is still kept. `log_keeps_what_fits`: after any requests the log holds what
`Packing.fitting` lets in of the messages that they log, and the mark says whether anything is missing.
-/

namespace MirageLambda
open OCaml Packing

/-- What an event counts for (host_log.ml:26). -/
def LogEvent.size (e : LogEvent) : Nat := e.message.length + e.fields.foldl (fun a kv => a + kv.1.length + kv.2.length + 4) 0

namespace HostLog

/-- `append` of an event. -/
def record (t : HostLog) (e : LogEvent) : HostLog := t.append e.level e.message e.fields

/-- `events` (host_log.ml:39), the oldest first. -/
def recorded (t : HostLog) : List LogEvent := t.events.reverse

theorem record_eq (t : HostLog) (e : LogEvent) :
    t.record e = if t.bytes + e.size > t.maxBytes then { t with truncated := true }
      else { t with events := e :: t.events, bytes := t.bytes + e.size } := rfl

/-- What is left of `max_bytes`. -/
def room (t : HostLog) : Int := t.maxBytes - t.bytes

/-- **A run of events.** The log keeps those that fit, counts them, and is marked if one of them is missing. -/
theorem record_run (t : HostLog) (es : List LogEvent) :
    let t' := es.foldl record t
    t'.recorded = t.recorded ++ fitting LogEvent.size t.room es ∧
      t'.bytes = t.bytes + total LogEvent.size (fitting LogEvent.size t.room es) ∧ t'.maxBytes = t.maxBytes ∧
      (t'.truncated = false ↔ t.truncated = false ∧ fitting LogEvent.size t.room es = es) := by
  induction es generalizing t with
  | nil => simp [fitting, recorded]
  | cons e es ih =>
    obtain ⟨hevents, hbytes, hmax, hmark⟩ := ih (t.record e)
    simp only [List.foldl_cons]
    rw [record_eq] at hevents hbytes hmax hmark ⊢
    rw [fitting]
    by_cases hfits : (e.size : Int) ≤ t.room
    · have hnot : ¬ t.bytes + e.size > t.maxBytes := by
        unfold room at hfits
        omega
      rw [if_neg hnot] at hevents hbytes hmax hmark ⊢
      rw [if_pos hfits]
      have hroom : HostLog.room { t with events := e :: t.events, bytes := t.bytes + e.size } = t.room - e.size := by
        unfold room
        simp only []
        omega
      rw [hroom] at hevents hbytes hmark
      refine ⟨?_, ?_, hmax, ?_⟩
      · rw [hevents]
        simp [recorded]
      · rw [hbytes, total_cons]
        simp only []
        omega
      · rw [hmark, List.cons.injEq, and_iff_right rfl]
    · have hover : t.bytes + e.size > t.maxBytes := by
        unfold room at hfits
        omega
      rw [if_pos hover] at hevents hbytes hmax hmark ⊢
      rw [if_neg hfits]
      refine ⟨hevents, hbytes, hmax, ?_⟩
      -- the mark is set, and what is kept is shorter than what was asked
      refine iff_of_false (fun h => Bool.noConfusion (hmark.1 h).1) ?_
      rintro ⟨-, heq⟩
      have hlen := (fitting_sublist LogEvent.size t.room es).length_le
      rw [heq, List.length_cons] at hlen
      omega

end HostLog

/-! ## The broker -/

/-- The event that a request logs (capability_broker.ml:32-40). -/
def loggedBy (Y : Yojson) (payload : Str) : Option LogEvent :=
  match logLevel (parsePayload payload).1, Y.fromString (parsePayload payload).2 with
  | some level, .ok (.assoc fields) => some { level, message := stringMember fields (str "message"), fields := [] }
  | _, _ => none

theorem log_onObject {Y : Yojson} {arg : Str} {impls : Implementations}
    {k : List (Str × Json) → Outcome Str Str × Implementations} {other : Outcome Str Str}
    (hk : ∀ fields, (k fields).2.log = impls.log) : (onObject Y arg impls k other).2.log = impls.log := by
  rcases onObject_cases Y arg impls k other with ⟨m, -, h⟩ | ⟨fields, -, h⟩ | ⟨-, -, h⟩
  · rw [h]
  · rw [h, hk]
  · rw [h]

/-- **Only a log request touches the log**, and it records one event or none. -/
theorem log_dispatch (Y : Yojson) (impls : Implementations) (policy : Policy) (sys : System) (payload : Str) :
    (dispatch Y impls policy sys payload).2.log = (loggedBy Y payload).toList.foldl HostLog.record impls.log := by
  have h := dispatch_dispatches Y impls policy sys payload
  unfold loggedBy
  generalize dispatch Y impls policy sys payload = r at h ⊢
  generalize (parsePayload payload).1 = op at h ⊢
  generalize (parsePayload payload).2 = arg at h ⊢
  cases h with
  | log level hlevel =>
    rw [hlevel]
    rcases onObject_cases Y arg impls _ _ with ⟨m, hread, h⟩ | ⟨fields, hread, h⟩ | ⟨-, hno, h⟩
    · rw [h, hread]
      rfl
    · rw [h, hread]
      rfl
    · rw [h]
      cases hread : Y.fromString arg with
      | error m => rfl
      | ok j =>
        cases j with
        | assoc fields => exact absurd hread (hno fields)
        | _ => rfl
  | clock hop =>
    subst hop
    rfl
  | random hop =>
    subst hop
    refine (log_onObject fun fields => ?_).trans ?_
    · rfl
    · rfl
  | get hop =>
    subst hop
    refine (log_onObject fun fields => ?_).trans ?_
    · rfl
    · rfl
  | put hop =>
    subst hop
    refine (log_onObject fun fields => ?_).trans ?_
    · rfl
    · rfl
  | unknown hop =>
    rw [hop.log]
    rfl

/-- The implementations after requests, each with what the operating system answers. -/
def afterRequests (Y : Yojson) (policy : Policy) (impls : Implementations) (requests : List (System × Str)) :
    Implementations :=
  requests.foldl (fun impls r => (dispatch Y impls policy r.1 r.2).2) impls

/-- The `List.iter` of the dispatch loop leaves what its requests leave, one after the other. -/
theorem serve_eq_afterRequests {Y : Yojson} {sys : Nat → System} {turn : Qjs.Turn} {v : Int} {k : Nat}
    {impls impls' : Implementations} {reqs : List Qjs.HostRequest} {st st' : Qjs.State}
    (h : serve Y sys turn v k impls reqs st = (.ok impls', st')) :
    impls' = afterRequests Y Policy.empty impls ((reqs.zipIdx k).map fun r => (sys r.2, r.1.payload.bytes)) := by
  induction reqs generalizing k impls st with
  | nil =>
    cases h
    rfl
  | cons req reqs ih =>
    rw [serve] at h
    obtain ⟨u, st₁, -, hrest⟩ := Prog.bind_eq_ok h
    rw [ih hrest, List.zipIdx_cons, List.map_cons]
    rfl

theorem log_afterRequests (Y : Yojson) (policy : Policy) (impls : Implementations) (requests : List (System × Str)) :
    (afterRequests Y policy impls requests).log =
      (requests.filterMap fun r => loggedBy Y r.2).foldl HostLog.record impls.log := by
  unfold afterRequests
  induction requests generalizing impls with
  | nil => rfl
  | cons r requests ih =>
    rw [List.foldl_cons, ih, log_dispatch, List.filterMap_cons]
    cases loggedBy Y r.2 with
    | none => rfl
    | some e => rfl

/-- **The log keeps what fits.** After any requests it has in it what was there, then the messages that these log, in
order, but for those that found too little of `max_bytes` left; what is kept never takes more than `max_bytes`; and the
log is marked as truncated exactly when a message is missing, which is when they do not fit all together. -/
theorem log_keeps_what_fits (Y : Yojson) (policy : Policy) (maxBytes : Int) (impls : Implementations)
    (requests : List (System × Str)) :
    let asked := requests.filterMap fun r => loggedBy Y r.2
    let log := (afterRequests Y policy { impls with log := HostLog.make maxBytes } requests).log
    log.recorded = fitting LogEvent.size maxBytes asked ∧ log.bytes = total LogEvent.size log.recorded ∧
      (0 ≤ maxBytes → log.bytes ≤ maxBytes) ∧ (log.truncated = false ↔ log.recorded = asked) ∧
      (0 ≤ maxBytes → (log.truncated = false ↔ total LogEvent.size asked ≤ maxBytes)) := by
  intro asked log
  have hlog : log = asked.foldl HostLog.record (HostLog.make maxBytes) := log_afterRequests Y policy _ requests
  obtain ⟨hevents, hbytes, -, hmark⟩ := HostLog.record_run (HostLog.make maxBytes) asked
  rw [← hlog] at hevents hbytes hmark
  have hroom : (HostLog.make maxBytes).room = maxBytes := Int.sub_zero maxBytes
  rw [hroom] at hevents hbytes hmark
  have hkept : log.recorded = fitting LogEvent.size maxBytes asked := hevents
  have hcount : log.bytes = total LogEvent.size (fitting LogEvent.size maxBytes asked) := by
    rw [hbytes]
    exact Int.zero_add _
  have hclean : log.truncated = false ↔ fitting LogEvent.size maxBytes asked = asked :=
    hmark.trans (and_iff_right rfl)
  refine ⟨hkept, ?_, fun hpos => ?_, ?_, fun hpos => ?_⟩
  · rw [hkept, hcount]
  · rw [hcount]
    exact total_fitting_le LogEvent.size hpos asked
  · rw [hkept, hclean]
  · rw [hclean, fitting_eq_self_iff LogEvent.size hpos]

end MirageLambda
