import MirageLambda.Worker.Answers
import MirageLambda.Worker.RuntimeHost

/-!
# How answers reach JavaScript (worker/runtime_host.ml:23-32, qjs/c/qjs_stubs.c:510-533)

An answer of the broker goes back as a text, and `mlqjs_resolve` decides by that text alone: a text that the engine's
JSON reader accepts fulfils the promise, any other rejects it. The text for `Error msg` is meant to "reject the Promise
with a JSON error object" (runtime_host.ml:29). It is JSON whenever the message is legible, and then the promise is
fulfilled.

`driveRecorded` is `drive` with a log of the promises that are settled: which promise is in the slot that `mlqjs_resolve`
finds by the id, the request and what the broker saw of it, how the promise was settled. `drive_deliveries` says that it
is `drive`, that the log tells what was settled, and for each entry whether the promise got the answer it should have.
-/

namespace MirageLambda
open OCaml Qjs

/-- How a promise is settled. -/
inductive PromiseState where
  | fulfilled (v : JsValue)
  | rejected (reason : JsValue)

/-- What `mlqjs_resolve` makes of a text (qjs_stubs.c:519-530). -/
def settle (atod : Str → Float64) (result : Str) : PromiseState :=
  match parseJSON atod result with
  | some v => .fulfilled v
  | none => .rejected (.string (units (str "bad result JSON")))

/-- A settled promise, with the request as the broker got it. -/
structure Delivery where
  /-- The promise of the slot that was found. -/
  promise : Nat
  impls : Implementations
  sys : System
  payload : Str
  settlement : PromiseState

/-- What the broker answered. -/
def Delivery.answer (Y : Yojson) (d : Delivery) : Outcome Str Str :=
  (dispatch Y d.impls Policy.empty d.sys d.payload).1

/-- **What a promise should get**: the value of the answer, or a rejection when the operation failed. -/
def Delivery.Faithful (Y : Yojson) (atod : Str → Float64) (d : Delivery) : Prop :=
  match d.answer Y with
  | .ok json => ∃ v, parseJSON atod json = some v ∧ d.settlement = .fulfilled v
  | .error _ => ∃ reason, d.settlement = .rejected reason
  | .raised _ => False

/-! ## The loop with a log -/

/-- The promise in the slot that `mlqjs_resolve` finds. -/
def livePromise (st : State) (v : Int) (id : UInt64) : Option Nat := do
  let _ ← tableGet st.handles v
  let i ← promiseFind st.promises id
  (st.promises i).map fun s => s.resolver.promise

/-- `Qjs_engine.resolve`, with an entry for the promise it settles. -/
def resolveRecorded (atod : Str → Float64) (v : Int) (id : UInt64) (entry : Nat → PromiseState → Delivery) (json : Str)
    (calls : List HostCall) : Prog (State × List Delivery) Error Unit := fun s =>
  let r := Engine.resolve v id json calls s.1
  (r.1, r.2, ((livePromise s.1 v id).map fun p => entry p (settle atod json)).toList ++ s.2)

/-- `deliver`, with the log. -/
def deliverRecorded (atod : Str → Float64) (v : Int) (id : UInt64) (entry : Nat → PromiseState → Delivery)
    (answer : Outcome Str Str) (calls : List HostCall) : Prog (State × List Delivery) Error Unit :=
  match answer with
  | .ok json => resolveRecorded atod v id entry json calls
  | .error msg => resolveRecorded atod v id entry (errorJson msg) calls
  | .raised x => Prog.lift (.raised x)

/-- `serve`, with the log. -/
def serveRecorded (Y : Yojson) (atod : Str → Float64) (sys : Nat → System) (turn : Turn) (v : Int) :
    Nat → Implementations → List HostRequest → Prog (State × List Delivery) Error Implementations
  | _, impls, [] => pure impls
  | k, impls, req :: rest => do
    let answered := dispatch Y impls Policy.empty (sys k) req.payload.bytes
    deliverRecorded atod v req.id (fun promise settlement =>
      { promise, impls, sys := sys k, payload := req.payload.bytes, settlement }) answered.1 (turn.reply k)
    serveRecorded Y atod sys turn v (k + 1) answered.2 rest

/-- `drive`, with the log. -/
def driveRecorded (Y : Yojson) (atod : Str → Float64) (sys : Nat → Nat → System) (js : Script) (v : Int) :
    Nat → Nat → Implementations → Prog (State × List Delivery) Error Completion
  | 0, _, _ => pure (.timeout (Error.make .invocationTimeout .invocationTimeout
      (str "drive: max_turns exceeded (possible infinite loop)")))
  | maxTurns + 1, t, impls => do
    let turn := js.turn t
    Prog.withLog (Engine.pump v turn.pump)
    let requests ← Prog.withLog (Engine.takeHostRequests v)
    let impls ← serveRecorded Y atod (sys t) turn v 0 impls requests
    Prog.withLog (Engine.pump v turn.settle)
    let done ← Prog.withLog (Engine.evalInt v (str "__done ? 1 : 0") turn)
    if isDone done then Prog.withLog (readResult v turn) else driveRecorded Y atod sys js v maxTurns (t + 1) impls

section
variable {Y : Yojson} {atod : Str → Float64} {v : Int}

/-! ## The log is beside the run -/

theorem erases_deliver (id : UInt64) (entry : Nat → PromiseState → Delivery) (answer : Outcome Str Str)
    (calls : List HostCall) : Prog.Erases (deliverRecorded atod v id entry answer calls) (deliver v id answer calls) := by
  cases answer with
  | ok json => exact fun _ => rfl
  | error msg => exact fun _ => rfl
  | raised x => exact Prog.erases_lift _

theorem erases_serve (sys : Nat → System) (turn : Turn) (k : Nat) (impls : Implementations) (reqs : List HostRequest) :
    Prog.Erases (serveRecorded Y atod sys turn v k impls reqs) (serve Y sys turn v k impls reqs) := by
  induction reqs generalizing k impls with
  | nil => exact Prog.erases_pure impls
  | cons req rest ih => exact Prog.Erases.bind (erases_deliver _ _ _ _) fun _ => ih _ _

theorem erases_drive (sys : Nat → Nat → System) (js : Script) (n t : Nat) (impls : Implementations) :
    Prog.Erases (driveRecorded Y atod sys js v n t impls) (drive Y sys js v n t impls) := by
  induction n generalizing t impls with
  | zero => exact Prog.erases_pure _
  | succ n ih =>
    rw [driveRecorded, drive]
    refine (Prog.erases_withLog _).bind fun _ => (Prog.erases_withLog _).bind fun reqs => ?_
    refine Prog.Erases.bind (erases_serve _ _ _ _ _) fun impls => (Prog.erases_withLog _).bind fun _ => ?_
    refine (Prog.erases_withLog _).bind fun done => ?_
    split
    · exact Prog.erases_withLog _
    · exact ih _ _

/-! ## The log tells what was settled -/

/-- JavaScript settles no promise of the table by itself. -/
theorem runJs_settled (v : Int) (calls : List HostCall) (st : State) : (runJs v calls st).settled = st.settled := by
  have hact : ∀ (st : State) (call : HostCall), (act st (.hostCall v call)).settled = st.settled := by
    intro st call
    rw [act]
    cases hget : tableGet st.handles v with
    | none => rfl
    | some r =>
      obtain ⟨i, q⟩ := r
      rcases hostCall_cases hget call with ⟨msg, -, h⟩ | ⟨op, payload, -, -, h⟩ | ⟨op, payload, -, -, -, h⟩ |
        ⟨op, payload, -, -, -, -, h⟩ | ⟨op, payload, j, -, -, -, -, h⟩ <;> simp only [h] <;> rfl
  induction calls generalizing st with
  | nil => rfl
  | cons call calls ih =>
    show (runJs v calls (act st (.hostCall v call))).settled = st.settled
    rw [ih, hact]

theorem resolve_settled (id : UInt64) (json : Str) (calls : List HostCall) (st : State) :
    (Engine.resolve (ε := Error) v id json calls st).2.settled = (livePromise st v id).toList ++ st.settled := by
  unfold Engine.resolve livePromise
  cases tableGet st.handles v with
  | none => rfl
  | some r =>
    cases hfind : promiseFind st.promises id with
    | none => exact runJs_settled v calls st
    | some i =>
      show ((st.promises i).map fun s => s.resolver.promise).toList ++ (runJs v calls st).settled = _
      rw [runJs_settled]
      rfl

/-- The text that goes to `mlqjs_resolve` for an answer. -/
def answerText : Outcome Str Str → Option Str
  | .ok json => some json
  | .error msg => some (errorJson msg)
  | .raised _ => none

/-- The settlement is what `mlqjs_resolve` makes of the text for the answer. -/
def Delivery.Recorded (Y : Yojson) (atod : Str → Float64) (d : Delivery) : Prop :=
  ∃ text, answerText (d.answer Y) = some text ∧ d.settlement = settle atod text

/-- Since the state was `base`: the log has the promises that were settled, each as its answer says. -/
structure Logged (Y : Yojson) (atod : Str → Float64) (base : List Nat) (s : State × List Delivery) : Prop where
  settled : s.1.settled = s.2.map (·.promise) ++ base
  recorded : ∀ d ∈ s.2, d.Recorded Y atod

theorem maintains_of_settled {α : Type} {base : List Nat} {p : Prog State Error α}
    (h : ∀ st, (p st).2.settled = st.settled) : Prog.Maintains (Logged Y atod base) (Prog.withLog p) :=
  Prog.maintains_withLog fun st _ hs => ⟨(h st).trans hs.settled, hs.recorded⟩

theorem maintains_deliver {base : List Nat} (id : UInt64) (impls : Implementations) (sys : System) (payload : Str)
    (calls : List HostCall) :
    Prog.Maintains (Logged Y atod base) (deliverRecorded atod v id
      (fun promise settlement => { promise, impls, sys, payload, settlement })
      (dispatch Y impls Policy.empty sys payload).1 calls) := by
  have hresolve : ∀ text, answerText (dispatch Y impls Policy.empty sys payload).1 = some text →
      Prog.Maintains (Logged Y atod base) (resolveRecorded atod v id
        (fun promise settlement => { promise, impls, sys, payload, settlement }) text calls) := by
    rintro text htext ⟨st, log⟩ ⟨hsettled, hrecorded⟩
    constructor
    · show (Engine.resolve v id text calls st).2.settled = _
      rw [resolve_settled, hsettled]
      show _ = (((livePromise st v id).map fun p => Delivery.mk p impls sys payload _).toList ++ log).map _ ++ base
      cases livePromise st v id with
      | none => rfl
      | some p => rfl
    · intro d hd
      rcases List.mem_append.1 hd with hd | hd
      · obtain ⟨p, -, rfl⟩ := Option.map_eq_some_iff.1 (Option.mem_toList.1 hd)
        exact ⟨text, htext, rfl⟩
      · exact hrecorded d hd
  cases hanswer : (dispatch Y impls Policy.empty sys payload).1 with
  | ok json => exact hresolve json (by rw [hanswer]; rfl)
  | error msg => exact hresolve (errorJson msg) (by rw [hanswer]; rfl)
  | raised x => exact Prog.maintains_lift _ _

theorem maintains_serve {base : List Nat} (sys : Nat → System) (turn : Turn) (k : Nat) (impls : Implementations)
    (reqs : List HostRequest) : Prog.Maintains (Logged Y atod base) (serveRecorded Y atod sys turn v k impls reqs) := by
  induction reqs generalizing k impls with
  | nil => exact Prog.maintains_pure _ impls
  | cons req rest ih => exact Prog.Maintains.bind (maintains_deliver _ _ _ _ _) fun _ => ih _ _

theorem pump_settled (calls : List HostCall) (st : State) :
    (Engine.pump (ε := Error) v calls st).2.settled = st.settled := by
  unfold Engine.pump
  cases tableGet st.handles v with
  | none => rfl
  | some r => exact runJs_settled v calls st

theorem takeHostRequests_settled (st : State) :
    (Engine.takeHostRequests (ε := Error) v st).2.settled = st.settled := by
  show (Prog.bind (fun st => mlqjsTakeRequests st v) _ st).2.settled = st.settled
  cases hget : tableGet st.handles v with
  | none => simp only [Prog.bind, mlqjsTakeRequests, hget]
  | some r =>
    obtain ⟨i, q⟩ := r
    simp only [Prog.bind, mlqjsTakeRequests, hget]
    rfl

theorem evalInt_settled (src : Str) (turn : Turn) (st : State) :
    (Engine.evalInt (ε := Error) v src turn st).2.settled = st.settled := by
  have hcheck := runJs_settled v turn.check st
  unfold Engine.evalInt
  cases tableGet st.handles v with
  | none => rfl
  | some r =>
    cases turn.evalInt src with
    | ok n => exact hcheck
    | error e => cases e <;> exact hcheck

theorem evalString_settled (src : Str) (turn : Turn) (st : State) :
    (Engine.evalString (ε := Error) v src turn st).2.settled = st.settled := by
  have hfinish := runJs_settled v turn.finish st
  unfold Engine.evalString
  cases tableGet st.handles v with
  | none => rfl
  | some r =>
    cases turn.evalString src with
    | ok n => exact hfinish
    | error e => cases e <;> exact hfinish

theorem readResult_settled (turn : Turn) (st : State) : (readResult v turn st).2.settled = st.settled := by
  have heval := evalString_settled (v := v) (str "JSON.stringify(globalThis.__result || null)") turn st
  rcases hr : Engine.evalString (ε := Error) v (str "JSON.stringify(globalThis.__result || null)") turn st with ⟨r, st'⟩
  rw [hr] at heval
  cases r with
  | ok result =>
    rw [readResult, Prog.bind_of_ok hr]
    cases result with
    | ok json => exact heval
    | error e => exact heval
  | error e =>
    rw [readResult, Prog.bind_of_error hr]
    exact heval
  | raised x =>
    rw [readResult, Prog.bind_of_raised hr]
    exact heval

/-- **Along every run the log tells what was settled**, and how. -/
theorem maintains_drive {base : List Nat} (sys : Nat → Nat → System) (js : Script) (n t : Nat) (impls : Implementations) :
    Prog.Maintains (Logged Y atod base) (driveRecorded Y atod sys js v n t impls) := by
  induction n generalizing t impls with
  | zero => exact Prog.maintains_pure _ _
  | succ n ih =>
    rw [driveRecorded]
    refine Prog.Maintains.bind (maintains_of_settled (pump_settled _)) fun _ => ?_
    refine Prog.Maintains.bind (maintains_of_settled takeHostRequests_settled) fun reqs => ?_
    refine Prog.Maintains.bind (maintains_serve _ _ _ _ _) fun impls => ?_
    refine Prog.Maintains.bind (maintains_of_settled (pump_settled _)) fun _ => ?_
    refine Prog.Maintains.bind (maintains_of_settled (evalInt_settled _ _)) fun done => ?_
    split
    · exact maintains_of_settled (readResult_settled _)
    · exact ih _ _

/-! ## Which answers arrive -/

/-- `Yojson.Safe.to_string` of a list of integers, which has no white space. -/
def Yojson.PrintsInts (Y : Yojson) : Prop :=
  ∀ ns : List Int, Y.toString (.list (ns.map .int)) = listText ns

/-- The text for this answer has the effect it should have. -/
def Arrives (atod : Str → Float64) : Outcome Str Str → Prop
  | .ok json => ∃ v, parseJSON atod json = some v
  | .error msg => ¬ Legible msg
  | .raised _ => False

theorem faithful_iff_arrives {d : Delivery} (h : d.Recorded Y atod) : d.Faithful Y atod ↔ Arrives atod (d.answer Y) := by
  obtain ⟨text, htext, hsettle⟩ := h
  unfold Delivery.Faithful
  cases hanswer : d.answer Y with
  | ok json =>
    obtain rfl : json = text := by simpa [hanswer, answerText] using htext
    constructor
    · rintro ⟨v, hv, -⟩
      exact ⟨v, hv⟩
    · rintro ⟨v, hv⟩
      exact ⟨v, hv, by rw [hsettle, settle, hv]⟩
  | error msg =>
    obtain rfl : errorJson msg = text := by simpa [hanswer, answerText] using htext
    have hparse := parseJSON_error atod msg
    rw [hsettle, settle, errorJson, hparse]
    by_cases hmsg : Legible msg
    · rw [if_pos hmsg]
      refine iff_of_false ?_ (not_not.2 hmsg)
      rintro ⟨reason, h⟩
      cases h
    · rw [if_neg hmsg]
      exact iff_of_true ⟨_, rfl⟩ hmsg
  | raised x => simp [hanswer, answerText] at htext

/-- A request whose answer reaches JavaScript as it is: one that succeeds with a text that JSON can hold, or an unknown
operation with a name that it cannot. -/
def Conveyed (Y : Yojson) (impls : Implementations) (payload : Str) : Prop :=
  let op := (parsePayload payload).1
  let arg := (parsePayload payload).2
  if (logLevel op).isSome ∨ op = str "clock.monotonicMs" then True
  else if op = str "crypto.randomBytes" ∨ op = str "kv.put" then ∃ fields, Y.fromString arg = .ok (.assoc fields)
  else if op = str "kv.get" then
    ∃ fields, Y.fromString arg = .ok (.assoc fields) ∧
      ∀ v, impls.kv.findOpt (stringMember fields (str "key")) = some v → Legible v
  else ¬ Legible op

theorem arrives_null : Arrives atod (.ok (str "null")) := ⟨_, parseJSON_null atod⟩

/-- A stored value arrives when it is legible. -/
theorem arrives_camlString (v : Str) : Arrives atod (.ok (camlString v)) ↔ Legible v := by
  rw [Arrives, parseJSON_camlString]
  by_cases hv : Legible v
  · rw [if_pos hv]
    exact iff_of_true ⟨_, rfl⟩ hv
  · rw [if_neg hv]
    refine iff_of_false ?_ hv
    rintro ⟨v, h⟩
    cases h

/-- Random bytes are a list of numbers. -/
theorem arrives_bytes (hY : Y.PrintsInts) (bytes : Str) :
    Arrives atod (.ok (Y.toString (.list (bytes.map fun c => .int c.toNat)))) := by
  have hprint := hY (bytes.map fun c => (c.toNat : Int))
  rw [List.map_map] at hprint
  exact ⟨_, by rw [← parseJSON_listText, ← hprint]; rfl⟩

theorem arrives_random (hY : Y.PrintsInts) (crypto : HostCrypto) (sys : System) (n : Int)
    (hret : ((crypto.randomBytes sys n).1 >>= fun bytes : Str =>
      (.ok (Y.toString (.list (bytes.map fun c => .int c.toNat))) : Outcome Str Str)).Returns) :
    Arrives atod ((crypto.randomBytes sys n).1 >>= fun bytes =>
      .ok (Y.toString (.list (bytes.map fun c => .int c.toNat)))) := by
  have hno := randomBytes_ne_error (ε := Str) crypto sys n
  cases hbytes : (crypto.randomBytes (ε := Str) sys n).1 with
  | ok bytes => exact arrives_bytes hY bytes
  | error e => exact absurd hbytes (hno e)
  | raised x =>
    rw [hbytes] at hret
    exact absurd rfl (hret x)

section
variable {arg : Str} {impls : Implementations} {k : List (Str × Json) → Outcome Str Str × Implementations}

/-- An operation that answers `null` to other JSON than objects. -/
theorem arrives_onObject (hk : ∀ fields, Arrives atod (k fields).1)
    (hret : (onObject Y arg impls k (.ok (str "null"))).1.Returns) :
    Arrives atod (onObject Y arg impls k (.ok (str "null"))).1 := by
  rcases onObject_cases Y arg impls k (.ok (str "null")) with ⟨m, -, h⟩ | ⟨fields, -, h⟩ | ⟨-, -, h⟩
  · rw [h] at hret
    exact absurd rfl (hret _)
  · rw [h]
    exact hk fields
  · rw [h]
    exact arrives_null

/-- An operation that refuses other JSON, with a legible message: what arrives is the answer to an object. -/
theorem arrives_onObject_iff {msg : Str} (hmsg : Legible msg)
    (hret : (onObject Y arg impls k (.error msg)).1.Returns) :
    Arrives atod (onObject Y arg impls k (.error msg)).1 ↔
      ∃ fields, Y.fromString arg = .ok (.assoc fields) ∧ Arrives atod (k fields).1 := by
  rcases onObject_cases Y arg impls k (.error msg) with ⟨m, -, h⟩ | ⟨fields, hread, h⟩ | ⟨-, hno, h⟩
  · rw [h] at hret
    exact absurd rfl (hret _)
  · rw [h]
    constructor
    · exact fun hk => ⟨fields, hread, hk⟩
    · rintro ⟨fields', hread', hk⟩
      rw [hread] at hread'
      cases hread'
      exact hk
  · rw [h]
    refine iff_of_false (not_not.2 hmsg) ?_
    rintro ⟨fields, hread, -⟩
    exact hno fields hread

end

/-- **Which answers arrive**: an answer that is returned has the effect it should have exactly for conveyed requests. -/
theorem dispatch_arrives_iff (hY : Y.PrintsInts) (impls : Implementations) (policy : Policy) (sys : System)
    (payload : Str) (hret : (dispatch Y impls policy sys payload).1.Returns) :
    Arrives atod (dispatch Y impls policy sys payload).1 ↔ Conveyed Y impls payload := by
  have h := dispatch_dispatches Y impls policy sys payload
  unfold Conveyed
  generalize dispatch Y impls policy sys payload = r at h hret ⊢
  generalize (parsePayload payload).1 = op at h ⊢
  generalize (parsePayload payload).2 = arg at h ⊢
  cases h with
  | log level hlevel =>
    simp only [hlevel, Option.isSome_some, true_or, if_true, iff_true]
    exact arrives_onObject (fun _ => arrives_null) hret
  | clock hop =>
    simp only [hop, or_true, if_true, iff_true]
    exact ⟨_, parseJSON_intToString atod _⟩
  | random hop =>
    subst hop
    rw [arrives_onObject_iff (by decide +kernel) hret, if_neg (by decide), if_pos (Or.inl rfl)]
    refine exists_congr fun fields => and_iff_left_of_imp fun hread => ?_
    rw [onObject_of_object hread] at hret
    exact arrives_random hY impls.crypto sys _ hret
  | get hop =>
    subst hop
    rw [arrives_onObject_iff (by decide +kernel) hret, if_neg (by decide), if_neg (by decide), if_pos rfl]
    refine exists_congr fun fields => and_congr_right fun _ => ?_
    cases impls.kv.findOpt (stringMember fields (str "key")) with
    | none =>
      refine iff_of_true arrives_null fun v h => ?_
      cases h
    | some v => exact (arrives_camlString v).trans (by simp)
  | put hop =>
    subst hop
    rw [arrives_onObject_iff (by decide +kernel) hret, if_neg (by decide), if_pos (Or.inr rfl)]
    exact exists_congr fun fields => and_iff_left arrives_null
  | unknown hop =>
    simp only [hop.log, hop.clock, hop.random, hop.put, hop.get, Option.isSome_none, Bool.false_eq_true, or_self,
      if_false]
    show ¬ Legible (str "unknown operation: " ++ op) ↔ ¬ Legible op
    rw [legible_append, and_iff_right (by decide +kernel)]

theorem Delivery.Recorded.returns {d : Delivery} (h : d.Recorded Y atod) : (d.answer Y).Returns := by
  obtain ⟨text, htext, -⟩ := h
  intro x hx
  rw [hx] at htext
  cases htext

/-- **How answers reach JavaScript**: in every run of `drive`, whatever it settles, a promise gets the answer it should
get exactly when its request is conveyed. The promise of an entry is that of the slot which `mlqjs_resolve` finds by the
request's id: the request's own, unless the slot of another request has the same id. -/
theorem drive_deliveries (hY : Y.PrintsInts) (sys : Nat → Nat → System) (js : Script) (n t : Nat)
    (impls : Implementations) (st : State) :
    let run := driveRecorded Y atod sys js v n t impls (st, [])
    (run.1, run.2.1) = drive Y sys js v n t impls st ∧
      run.2.1.settled = run.2.2.map (·.promise) ++ st.settled ∧
      ∀ d ∈ run.2.2, d.Faithful Y atod ↔ Conveyed Y d.impls d.payload := by
  have hlogged : Logged Y atod st.settled (driveRecorded Y atod sys js v n t impls (st, [])).2 :=
    maintains_drive sys js n t impls (st, []) ⟨rfl, fun d hd => absurd hd List.not_mem_nil⟩
  refine ⟨erases_drive sys js n t impls (st, []), hlogged.settled, fun d hd => ?_⟩
  have hrecorded := hlogged.recorded d hd
  rw [faithful_iff_arrives hrecorded]
  exact dispatch_arrives_iff hY d.impls Policy.empty d.sys d.payload hrecorded.returns

end

/-! ### Two runs -/

def intOf : Json → Option Int
  | .int n => some n
  | _ => none

/-- The printer of `JsonText`, with lists of integers. -/
def compactToString : Json → Str
  | .list xs => match xs.mapM intOf with
    | some ns => listText ns
    | none => JsonText.print (.list xs)
  | j => JsonText.print j

def compactYojson : Yojson := { JsonText.plainYojson with toString := compactToString }

theorem printsInts_compactYojson : compactYojson.PrintsInts := by
  intro ns
  have hints : (ns.map Json.int).mapM intOf = some ns := by
    induction ns with
    | nil => rfl
    | cons n ns ih => simp [intOf, ih]
  show compactToString (.list (ns.map Json.int)) = listText ns
  rw [compactToString, hints]

/-- A handler that makes one host call and waits. -/
def callOnce (op : Str) : Script where
  load _ := []
  call _ := []
  turn _ :=
    { pump := [.rpc op (str "\x7b\x7d")], reply := fun _ => [], settle := [], check := [], evalInt := fun _ => .ok 0,
      finish := [], evalString := fun _ => .error .threw }

/-- One engine. -/
def oneEngine : State := (create (ε := Empty) State.init (.ok ())).2

/-- The log of a run of one turn. -/
def logOf (Y : Yojson) (op : Str) : List Delivery :=
  (driveRecorded Y (fun _ => ⟨0⟩) (fun _ _ => quietSystem) (callOnce op) 65536 1 0 freshImpls (oneEngine, [])).2.2

theorem mem_logOf {Y : Yojson} {op : Str} (payload : Str) (hlog : (logOf Y op).map (·.payload) = [payload]) :
    ∃ d ∈ logOf Y op, d.payload = payload := by
  have hmem : payload ∈ (logOf Y op).map (·.payload) := by rw [hlog]; exact List.mem_singleton_self payload
  exact List.mem_map.1 hmem

/-- An operation that does not exist fails, and its promise is fulfilled. -/
theorem unknown_operation_fulfilled :
    ∃ d ∈ logOf compactYojson (str "nope"), d.answer compactYojson = .error (str "unknown operation: nope") ∧
      ¬ d.Faithful compactYojson fun _ => ⟨0⟩ := by
  obtain ⟨d, hd, hpayload⟩ : ∃ d ∈ logOf compactYojson (str "nope"), d.payload = str "nope\n\x7b\x7d" :=
    mem_logOf _ (by decide +kernel)
  have hanswer : d.answer compactYojson = .error (str "unknown operation: nope") := by
    rw [Delivery.answer, hpayload]
    rfl
  have hrecorded : ∀ d ∈ logOf compactYojson (str "nope"), d.Recorded compactYojson fun _ => ⟨0⟩ :=
    (maintains_drive (fun _ _ => quietSystem) (callOnce (str "nope")) 1 0 freshImpls (oneEngine, [])
      ⟨rfl, fun d hd => absurd hd List.not_mem_nil⟩).recorded
  refine ⟨d, hd, hanswer, ?_⟩
  rw [faithful_iff_arrives (hrecorded d hd), hanswer]
  exact not_not.2 (by decide +kernel)

/-- The clock's answer arrives. -/
theorem drive_deliveries_clock :
    ∃ d ∈ logOf compactYojson (str "clock.monotonicMs"), d.Faithful compactYojson fun _ => ⟨0⟩ := by
  obtain ⟨d, hd, hpayload⟩ : ∃ d ∈ logOf compactYojson (str "clock.monotonicMs"),
      d.payload = str "clock.monotonicMs\n\x7b\x7d" := mem_logOf _ (by decide +kernel)
  have hrun : ∀ d ∈ logOf compactYojson (str "clock.monotonicMs"),
      d.Faithful compactYojson (fun _ => ⟨0⟩) ↔ Conveyed compactYojson d.impls d.payload :=
    (drive_deliveries printsInts_compactYojson (fun _ _ => quietSystem) (callOnce (str "clock.monotonicMs")) 1 0
      freshImpls oneEngine).2.2
  refine ⟨d, hd, (hrun d hd).2 ?_⟩
  rw [hpayload]
  exact trivial

end MirageLambda
