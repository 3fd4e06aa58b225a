import MirageLambda.Lib.Hashtbl
import MirageLambda.Common.CanonicalJson
import MirageLambda.Common.Capability
import MirageLambda.Worker.Hosts

/-!
# The capability broker (worker/capability_broker.ml)

`dispatch` answers one host request. The result is that of the source, `Ok json` or `Error msg`; but
`Yojson.Safe.from_string` and `Host_crypto.random_bytes` are called without a handler, so their
exceptions leave it. `dispatch_raises` says for which payloads.
-/

namespace MirageLambda
open OCaml

/-- `implementations` (capability_broker.ml:4). -/
structure Implementations where
  log : HostLog
  clock : HostClock
  crypto : HostCrypto
  kv : Hashtbl Str Str

/-- `parse_payload` (capability_broker.ml:14). -/
def parsePayload (payload : Str) : Str × Str :=
  match indexOpt payload 10 with
  | some i => (payload.take i, payload.drop (i + 1))
  | none => (payload, [123, 125])

/-- The level of a log operation (capability_broker.ml:32-36). -/
def logLevel (op : Str) : Option LogLevel :=
  if op = str "log.debug" then some .debug
  else if op = str "log.info" then some .info
  else if op = str "log.warn" then some .warn
  else if op = str "log.error" then some .error
  else none

/-- `match List.assoc_opt "length" fields with Some (`Int n) -> n | _ -> 16`. -/
def lengthMember (fields : List (Str × Json)) : Int :=
  match fields.lookup (str "length") with
  | some (.int n) => n
  | _ => 16

/-- `Int64.to_int`: 63 bits remain. -/
def int64ToInt (n : Int64) : Int := n.toInt.bmod (2 ^ 63)

/-- `match Yojson.Safe.from_string arg_json with …`; nothing handles the exception. -/
def onJson (Y : Yojson) (argJson : Str) (impls : Implementations)
    (k : Json → Outcome Str Str × Implementations) : Outcome Str Str × Implementations :=
  match Y.fromString argJson with
  | .ok j => k j
  | .error m => (.raised (.ext "Yojson.Json_error" m), impls)

/-- `dispatch` (capability_broker.ml:23). The policy is not looked at, as in the source. -/
def dispatch (Y : Yojson) (impls : Implementations) (_policy : Policy) (sys : System) (payload : Str) :
    Outcome Str Str × Implementations :=
  let (op, argJson) := parsePayload payload
  match logLevel op with
  | some level => onJson Y argJson impls fun
    | .assoc fields =>
      let msg := stringMember fields (str "message")
      (.ok (str "null"), { impls with log := impls.log.append level msg [] })
    | _ => (.ok (str "null"), impls)
  | none =>
    if op = str "clock.monotonicMs" then
      let (ms, clock) := impls.clock.monotonicMs sys
      (.ok (intToString (int64ToInt ms)), { impls with clock })
    else if op = str "crypto.randomBytes" then onJson Y argJson impls fun
      | .assoc fields =>
        let n := lengthMember fields
        let (bytes, crypto) := impls.crypto.randomBytes sys n
        (bytes >>= fun bytes => .ok (Y.toString (.list (bytes.map fun c => .int c.toNat))),
          { impls with crypto })
      | _ => (.error (str "crypto.randomBytes: bad arg"), impls)
    else if op = str "kv.get" then onJson Y argJson impls fun
      | .assoc fields =>
        let key := stringMember fields (str "key")
        match impls.kv.findOpt key with
        | some v => (.ok (camlString v), impls)
        | none => (.ok (str "null"), impls)
      | _ => (.error (str "kv.get: bad arg"), impls)
    else if op = str "kv.put" then onJson Y argJson impls fun
      | .assoc fields =>
        let key := stringMember fields (str "key")
        let value := stringMember fields (str "value")
        (.ok (str "null"), { impls with kv := impls.kv.replace key value })
      | _ => (.error (str "kv.put: bad arg"), impls)
    else (.error (str "unknown operation: " ++ op), impls)

/-! ## The operations -/

/-- The operations that read an object: what is answered for one, and for other JSON. -/
def onObject (Y : Yojson) (argJson : Str) (impls : Implementations)
    (k : List (Str × Json) → Outcome Str Str × Implementations) (other : Outcome Str Str) :
    Outcome Str Str × Implementations :=
  onJson Y argJson impls fun
    | .assoc fields => k fields
    | _ => (other, impls)

/-- None of the operations of the broker. -/
structure UnknownOp (op : Str) : Prop where
  log : logLevel op = none
  clock : op ≠ str "clock.monotonicMs"
  random : op ≠ str "crypto.randomBytes"
  get : op ≠ str "kv.get"
  put : op ≠ str "kv.put"

/-- What `dispatch` does with a request of each kind. -/
inductive Dispatches (Y : Yojson) (impls : Implementations) (sys : System) (op arg : Str) :
    Outcome Str Str × Implementations → Prop where
  | log (level : LogLevel) (h : logLevel op = some level) :
    Dispatches Y impls sys op arg (onObject Y arg impls (fun fields =>
      (.ok (str "null"), { impls with log := impls.log.append level (stringMember fields (str "message")) [] }))
      (.ok (str "null")))
  | clock (h : op = str "clock.monotonicMs") :
    Dispatches Y impls sys op arg (.ok (intToString (int64ToInt (impls.clock.monotonicMs sys).1)),
      { impls with clock := (impls.clock.monotonicMs sys).2 })
  | random (h : op = str "crypto.randomBytes") :
    Dispatches Y impls sys op arg (onObject Y arg impls (fun fields =>
      ((impls.crypto.randomBytes sys (lengthMember fields)).1 >>= fun bytes =>
        .ok (Y.toString (.list (bytes.map fun c => .int c.toNat))),
        { impls with crypto := (impls.crypto.randomBytes (ε := Str) sys (lengthMember fields)).2 }))
      (.error (str "crypto.randomBytes: bad arg")))
  | get (h : op = str "kv.get") :
    Dispatches Y impls sys op arg (onObject Y arg impls (fun fields =>
      (.ok (((impls.kv.findOpt (stringMember fields (str "key"))).map camlString).getD (str "null")), impls))
      (.error (str "kv.get: bad arg")))
  | put (h : op = str "kv.put") :
    Dispatches Y impls sys op arg (onObject Y arg impls (fun fields =>
      (.ok (str "null"),
        { impls with kv := impls.kv.replace (stringMember fields (str "key")) (stringMember fields (str "value")) }))
      (.error (str "kv.put: bad arg")))
  | unknown (h : UnknownOp op) : Dispatches Y impls sys op arg (.error (str "unknown operation: " ++ op), impls)

theorem dispatch_dispatches (Y : Yojson) (impls : Implementations) (policy : Policy) (sys : System) (payload : Str) :
    Dispatches Y impls sys (parsePayload payload).1 (parsePayload payload).2 (dispatch Y impls policy sys payload) := by
  unfold dispatch
  obtain ⟨op, arg⟩ := parsePayload payload
  simp only []
  cases hlevel : logLevel op with
  | some level => exact .log level hlevel
  | none =>
    simp only []
    by_cases hclock : op = str "clock.monotonicMs"
    · rw [if_pos hclock]
      exact .clock hclock
    rw [if_neg hclock]
    by_cases hrandom : op = str "crypto.randomBytes"
    · rw [if_pos hrandom]
      exact .random hrandom
    rw [if_neg hrandom]
    by_cases hget : op = str "kv.get"
    · rw [if_pos hget]
      convert Dispatches.get hget using 1
      refine congrArg (onJson Y arg impls) (funext fun j => ?_)
      cases j with
      | assoc fields =>
        simp only []
        cases impls.kv.findOpt (stringMember fields (str "key")) with
        | none => rfl
        | some v => rfl
      | _ => rfl
    rw [if_neg hget]
    by_cases hput : op = str "kv.put"
    · rw [if_pos hput]
      exact .put hput
    · rw [if_neg hput]
      exact .unknown ⟨hlevel, hclock, hrandom, hget, hput⟩

section
variable {Y : Yojson} {arg : Str} {impls : Implementations} {k : List (Str × Json) → Outcome Str Str × Implementations}
  {other : Outcome Str Str}

theorem onObject_of_object {fields : List (Str × Json)} (h : Y.fromString arg = .ok (.assoc fields)) :
    onObject Y arg impls k other = k fields := by
  rw [onObject, onJson, h]

/-- No JSON, an object, or other JSON. -/
theorem onObject_cases (Y : Yojson) (arg : Str) (impls : Implementations)
    (k : List (Str × Json) → Outcome Str Str × Implementations) (other : Outcome Str Str) :
    (∃ m, Y.fromString arg = .error m ∧ onObject Y arg impls k other = (.raised (.ext "Yojson.Json_error" m), impls)) ∨
    (∃ fields, Y.fromString arg = .ok (.assoc fields) ∧ onObject Y arg impls k other = k fields) ∨
    ((∃ j, Y.fromString arg = .ok j) ∧ (∀ fields, Y.fromString arg ≠ .ok (.assoc fields)) ∧
      onObject Y arg impls k other = (other, impls)) := by
  unfold onObject onJson
  cases hread : Y.fromString arg with
  | error m => exact Or.inl ⟨m, rfl, rfl⟩
  | ok j =>
    cases j with
    | assoc fields => exact Or.inr (Or.inl ⟨fields, rfl, rfl⟩)
    | _ => exact Or.inr (Or.inr ⟨⟨_, rfl⟩, by simp, rfl⟩)

theorem onObject_raises (hother : other.Returns) :
    (onObject Y arg impls k other).1.Raises ↔
      (∃ m, Y.fromString arg = .error m) ∨ ∃ fields, Y.fromString arg = .ok (.assoc fields) ∧ (k fields).1.Raises := by
  rcases onObject_cases Y arg impls k other with ⟨m, hread, h⟩ | ⟨fields, hread, h⟩ | ⟨⟨j, hread⟩, hno, h⟩
  · rw [h]
    exact iff_of_true (Outcome.raises_raised _) (Or.inl ⟨m, hread⟩)
  · simp [h, hread]
  · rw [h]
    refine iff_of_false hother.not_raises ?_
    rintro (⟨m, hm⟩ | ⟨fields, hfields, -⟩)
    · rw [hread] at hm
      cases hm
    · exact hno fields hfields

/-- An operation that answers every object raises exactly when the argument is no JSON. -/
theorem onObject_raises_of_returns (hk : ∀ fields, (k fields).1.Returns) (hother : other.Returns) :
    (onObject Y arg impls k other).1.Raises ↔ ∃ m, Y.fromString arg = .error m := by
  rw [onObject_raises hother]
  constructor
  · rintro (h | ⟨fields, _, h⟩)
    · exact h
    · exact absurd h (hk fields).not_raises
  · exact Or.inl

end

/-! ## When it raises -/

/-- The operations whose argument is read as JSON. -/
def readsJson (op : Str) : Bool :=
  (logLevel op).isSome || op = str "crypto.randomBytes" || op = str "kv.get" || op = str "kv.put"

/-- A payload that `dispatch` does not survive: the argument is no JSON where JSON is read, or random
bytes are asked for that the system does not give. -/
def Unanswerable (Y : Yojson) (sys : System) (payload : Str) : Prop :=
  (readsJson (parsePayload payload).1 = true ∧ ∃ m, Y.fromString (parsePayload payload).2 = .error m) ∨
    ((parsePayload payload).1 = str "crypto.randomBytes" ∧
      ∃ fields, Y.fromString (parsePayload payload).2 = .ok (.assoc fields) ∧
        sys.RandomFails (lengthMember fields))

/-- **Which payloads `dispatch` raises on**, whatever the implementations. -/
theorem dispatch_raises_iff {Y : Yojson} {impls : Implementations} (policy : Policy) (sys : System) (payload : Str) :
    (dispatch Y impls policy sys payload).1.Raises ↔
      (readsJson (parsePayload payload).1 = true ∧ ∃ m, Y.fromString (parsePayload payload).2 = .error m) ∨
        ((parsePayload payload).1 = str "crypto.randomBytes" ∧
          ∃ fields, Y.fromString (parsePayload payload).2 = .ok (.assoc fields) ∧
            impls.crypto.Refuses sys (lengthMember fields)) := by
  have h := dispatch_dispatches Y impls policy sys payload
  generalize dispatch Y impls policy sys payload = r at h ⊢
  generalize (parsePayload payload).1 = op at h ⊢
  generalize (parsePayload payload).2 = arg at h ⊢
  cases h with
  | log level hlevel =>
    have hne : op ≠ str "crypto.randomBytes" := by
      rintro rfl
      cases hlevel
    rw [onObject_raises_of_returns (fun _ => Outcome.returns_ok _) (Outcome.returns_ok _)]
    simp [readsJson, hlevel, hne]
  | clock hop =>
    subst hop
    refine iff_of_false (Outcome.raises_ok _) ?_
    rintro (⟨hreads, -⟩ | ⟨hrandom, -⟩)
    · exact absurd hreads (by decide)
    · exact absurd hrandom (by decide)
  | random hop =>
    subst hop
    have hreads : readsJson (str "crypto.randomBytes") = true := by decide
    rw [onObject_raises (Outcome.returns_error _), and_iff_right hreads, and_iff_right rfl]
    refine or_congr Iff.rfl (exists_congr fun fields => and_congr Iff.rfl ?_)
    rw [Outcome.raises_bind, randomBytes_raises_iff]
    refine or_iff_left ?_
    rintro ⟨bytes, -, h⟩
    exact Outcome.raises_ok _ h
  | get hop =>
    subst hop
    have hreads : readsJson (str "kv.get") = true := by decide
    have hrandom : str "kv.get" ≠ str "crypto.randomBytes" := by decide
    rw [onObject_raises_of_returns (fun _ => Outcome.returns_ok _) (Outcome.returns_error _)]
    simp [hreads, hrandom]
  | put hop =>
    subst hop
    have hreads : readsJson (str "kv.put") = true := by decide
    have hrandom : str "kv.put" ≠ str "crypto.randomBytes" := by decide
    rw [onObject_raises_of_returns (fun _ => Outcome.returns_ok _) (Outcome.returns_error _)]
    simp [hreads, hrandom]
  | unknown hop => simp [readsJson, hop.log, hop.random, hop.get, hop.put]

/-- With the real source of randomness only the system can refuse. -/
theorem dispatch_raises {Y : Yojson} {impls : Implementations} (hreal : impls.crypto.deterministic = false)
    (policy : Policy) (sys : System) (payload : Str) :
    (dispatch Y impls policy sys payload).1.Raises ↔ Unanswerable Y sys payload := by
  rw [dispatch_raises_iff, Unanswerable]
  simp only [refuses_real hreal]

/-- No request replaces the source of randomness. -/
theorem dispatch_crypto {Y : Yojson} {impls : Implementations} (hreal : impls.crypto.deterministic = false)
    (policy : Policy) (sys : System) (payload : Str) :
    (dispatch Y impls policy sys payload).2.crypto.deterministic = false := by
  have hobject : ∀ {arg k other}, (∀ fields, (k fields).2.crypto.deterministic = false) →
      (onObject Y arg impls k other).2.crypto.deterministic = false := by
    intro arg k other hk
    rcases onObject_cases Y arg impls k other with ⟨m, -, h⟩ | ⟨fields, -, h⟩ | ⟨-, -, h⟩
    · rw [h]
      exact hreal
    · rw [h]
      exact hk fields
    · rw [h]
      exact hreal
  have h := dispatch_dispatches Y impls policy sys payload
  generalize dispatch Y impls policy sys payload = r at h ⊢
  cases h with
  | log level _ => exact hobject fun _ => hreal
  | clock _ => exact hreal
  | random _ => exact hobject fun _ => by rw [randomBytes_real hreal]; exact hreal
  | get _ => exact hobject fun _ => hreal
  | put _ => exact hobject fun _ => hreal
  | unknown _ => exact hreal

end MirageLambda
