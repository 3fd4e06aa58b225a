import MirageLambda.Common.JsonText
import MirageLambda.Qjs.ParseJson
import MirageLambda.Worker.CapabilityBroker

/-!
# What the broker answers

Two questions about `dispatch` (worker/capability_broker.ml).

Does it answer at all? It is meant to return `Ok json` or `Error msg` (the comment at capability_broker.ml:22), but
the argument of most operations goes to `Yojson.Safe.from_string` without a handler: `host.rpc(op, undefined)` sends
the text `undefined`. `dispatch_returns_iff` says which payloads are answered.

Does `kv.get` give back what `kv.put` stored? The table does (`kvRun_findOpt`); the answer is written with OCaml's
`%S`, which is JSON for legible values only (`kv_answers_iff`).
-/

namespace MirageLambda
open OCaml Qjs

/-! ## Answered payloads -/

/-- The argument is JSON where JSON is read, and the random bytes that are asked for can be had. -/
structure Answerable (Y : Yojson) (impls : Implementations) (sys : System) (payload : Str) : Prop where
  reads : readsJson (parsePayload payload).1 = true → ∃ j, Y.fromString (parsePayload payload).2 = .ok j
  draws : (parsePayload payload).1 = str "crypto.randomBytes" →
    ∀ fields, Y.fromString (parsePayload payload).2 = .ok (.assoc fields) →
      ¬ impls.crypto.Refuses sys (lengthMember fields)

/-- **Which payloads the broker answers**, for every policy and all implementations. -/
theorem dispatch_returns_iff (Y : Yojson) (impls : Implementations) (policy : Policy) (sys : System) (payload : Str) :
    (dispatch Y impls policy sys payload).1.Returns ↔ Answerable Y impls sys payload := by
  rw [← Outcome.not_raises_iff, dispatch_raises_iff, not_or, not_and, not_and]
  constructor
  · rintro ⟨hreads, hdraws⟩
    refine ⟨fun hop => ?_, fun hop fields hread hrefuses => hdraws hop ⟨fields, hread, hrefuses⟩⟩
    cases hread : Y.fromString (parsePayload payload).2 with
    | ok j => exact ⟨j, rfl⟩
    | error m => exact absurd ⟨m, hread⟩ (hreads hop)
  · rintro ⟨hreads, hdraws⟩
    refine ⟨fun hop => ?_, fun hop => ?_⟩
    · obtain ⟨j, hj⟩ := hreads hop
      rintro ⟨m, hm⟩
      rw [hj] at hm
      cases hm
    · rintro ⟨fields, hread, hrefuses⟩
      exact hdraws hop fields hread hrefuses

/-- Implementations as a worker makes them (worker_pool.ml:53-57). -/
def freshImpls : Implementations := { log := .make 65536, clock := .makeReal, crypto := .makeReal, kv := .empty }

/-- A system that gives what it is asked for. -/
def quietSystem : System := { nowMs := 0, memory := some fun _ => 0, openfile := .ok (), read := .ok [] }

/-- `host.rpc("kv.get", undefined)`: the exception of Yojson leaves the broker. -/
theorem dispatch_undefined_raises :
    ¬ (dispatch JsonText.plainYojson freshImpls Policy.empty quietSystem (str "kv.get\nundefined")).1.Returns := by
  rw [Outcome.not_returns_iff]
  exact ⟨_, rfl⟩

/-! ## The key-value store -/

inductive KvRequest where
  | put (key value : Str)
  | get (key : Str)
deriving DecidableEq, Repr

/-- The payload of a request: the operation's name and an object with the request's strings. -/
def Carries (Y : Yojson) (payload : Str) : KvRequest → Prop
  | .put key value => (parsePayload payload).1 = str "kv.put" ∧
      ∃ fields, Y.fromString (parsePayload payload).2 = .ok (.assoc fields) ∧
        fields.lookup (str "key") = some (.string key) ∧ fields.lookup (str "value") = some (.string value)
  | .get key => (parsePayload payload).1 = str "kv.get" ∧
      ∃ fields, Y.fromString (parsePayload payload).2 = .ok (.assoc fields) ∧
        fields.lookup (str "key") = some (.string key)

/-- One call of `dispatch` with a key-value request. -/
structure KvCall (Y : Yojson) where
  payload : Str
  policy : Policy
  sys : System
  request : KvRequest
  carries : Carries Y payload request

/-- The answer to a call and the implementations after it. -/
def KvCall.dispatch {Y : Yojson} (c : KvCall Y) (impls : Implementations) : Outcome Str Str × Implementations :=
  MirageLambda.dispatch Y impls c.policy c.sys c.payload

/-- The implementations after a sequence of calls, the store empty at first. -/
def kvRun {Y : Yojson} (impls : Implementations) (calls : List (KvCall Y)) : Implementations :=
  calls.foldl (fun impls c => (c.dispatch impls).2) { impls with kv := .empty }

/-- The value of a `put` under this key. -/
def KvRequest.putUnder (key : Str) : KvRequest → Option Str
  | .put k v => if key = k then some v else none
  | .get _ => none

/-- The value last put under a key. -/
def lastPut (key : Str) (requests : List KvRequest) : Option Str := requests.reverse.findSome? (·.putUnder key)

/-- The JSON text denotes this byte string. -/
def DenotesString (atod : Str → Float64) (json value : Str) : Prop :=
  ∃ s, parseJSON atod json = some (.string s) ∧ toCString s = value

/-- What `kv.get` should answer when `stored` was last put. -/
def KvAnswer (atod : Str → Float64) (stored : Option Str) (answer : Outcome Str Str) : Prop :=
  match stored with
  | none => answer = .ok (str "null")
  | some value => ∃ json, answer = .ok json ∧ DenotesString atod json value

section
variable {Y : Yojson}

theorem dispatch_put {payload : Str} {fields : List (Str × Json)} (hop : (parsePayload payload).1 = str "kv.put")
    (hread : Y.fromString (parsePayload payload).2 = .ok (.assoc fields)) (impls : Implementations) (policy : Policy)
    (sys : System) :
    dispatch Y impls policy sys payload = (.ok (str "null"),
      { impls with kv := impls.kv.replace (stringMember fields (str "key")) (stringMember fields (str "value")) }) := by
  unfold dispatch
  generalize parsePayload payload = parsed at hop hread ⊢
  obtain ⟨op, arg⟩ := parsed
  obtain rfl : op = str "kv.put" := hop
  show onJson Y arg impls _ = _
  rw [onJson, hread]

theorem dispatch_get {payload : Str} {fields : List (Str × Json)} (hop : (parsePayload payload).1 = str "kv.get")
    (hread : Y.fromString (parsePayload payload).2 = .ok (.assoc fields)) (impls : Implementations) (policy : Policy)
    (sys : System) :
    dispatch Y impls policy sys payload =
      (.ok (((impls.kv.findOpt (stringMember fields (str "key"))).map camlString).getD (str "null")), impls) := by
  unfold dispatch
  generalize parsePayload payload = parsed at hop hread ⊢
  obtain ⟨op, arg⟩ := parsed
  obtain rfl : op = str "kv.get" := hop
  show onJson Y arg impls _ = _
  rw [onJson, hread]
  simp only []
  cases impls.kv.findOpt (stringMember fields (str "key")) with
  | none => rfl
  | some v => rfl

theorem stringMember_of_lookup {fields : List (Str × Json)} {name s : Str}
    (h : fields.lookup name = some (.string s)) : stringMember fields name = s := by
  rw [stringMember, h]

/-- What one call does to the store. -/
theorem KvCall.findOpt_dispatch (c : KvCall Y) (impls : Implementations) (key : Str) :
    (c.dispatch impls).2.kv.findOpt key = (c.request.putUnder key).or (impls.kv.findOpt key) := by
  obtain ⟨payload, policy, sys, request, hcarries⟩ := c
  cases request with
  | put k v =>
    obtain ⟨hop, fields, hread, hkey, hvalue⟩ := hcarries
    rw [KvCall.dispatch, dispatch_put hop hread, stringMember_of_lookup hkey, stringMember_of_lookup hvalue,
      Hashtbl.findOpt_replace, KvRequest.putUnder]
    split
    · rfl
    · rfl
  | get k =>
    obtain ⟨hop, fields, hread, hkey⟩ := hcarries
    rw [KvCall.dispatch, dispatch_get hop hread]
    rfl

theorem kvRun_append (impls : Implementations) (calls : List (KvCall Y)) (c : KvCall Y) :
    kvRun impls (calls ++ [c]) = (c.dispatch (kvRun impls calls)).2 := by
  rw [kvRun, List.foldl_append]
  rfl

theorem lastPut_append (key : Str) (requests : List KvRequest) (r : KvRequest) :
    lastPut key (requests ++ [r]) = (r.putUnder key).or (lastPut key requests) := by
  rw [lastPut, List.reverse_append, List.reverse_singleton, List.singleton_append, List.findSome?_cons]
  cases r.putUnder key with
  | none => rfl
  | some v => rfl

/-- **The table holds what was last put**, after every sequence of calls. -/
theorem kvRun_findOpt (impls : Implementations) (calls : List (KvCall Y)) (key : Str) :
    (kvRun impls calls).kv.findOpt key = lastPut key (calls.map (·.request)) := by
  -- induction from the end: the last call decides, and otherwise the calls before it
  induction calls using List.reverseRecOn with
  | nil => rfl
  | append_singleton calls c ih =>
    rw [kvRun_append, c.findOpt_dispatch, ih, List.map_append, List.map_singleton, lastPut_append]

/-- The answer to a `get` is right when what it finds is legible. -/
theorem KvCall.answer_iff (atod : Str → Float64) (c : KvCall Y) {key : Str} (hget : c.request = .get key)
    (impls : Implementations) :
    KvAnswer atod (impls.kv.findOpt key) (c.dispatch impls).1 ↔
      ∀ v, impls.kv.findOpt key = some v → Legible v := by
  obtain ⟨payload, policy, sys, request, hcarries⟩ := c
  obtain rfl : request = .get key := hget
  obtain ⟨hop, fields, hread, hkey⟩ := hcarries
  rw [KvCall.dispatch, dispatch_get hop hread, stringMember_of_lookup hkey]
  cases impls.kv.findOpt key with
  | none =>
    refine iff_of_true rfl fun v h => ?_
    cases h
  | some v =>
    have hparse := parseJSON_camlString atod v
    constructor
    · rintro ⟨json, hjson, s, hs, -⟩ w hw
      cases hw
      cases hjson
      by_contra hv
      rw [if_neg hv] at hparse
      cases hs.symm.trans hparse
    · intro h
      have hv := h v rfl
      rw [if_pos hv] at hparse
      exact ⟨_, rfl, _, hparse, toCString_units hv⟩

/-- A `get` in a sequence of calls, with the calls before it. -/
def GetAfter (calls before : List (KvCall Y)) (c : KvCall Y) (key : Str) : Prop :=
  (∃ after, calls = before ++ c :: after) ∧ c.request = .get key

/-- **The round trip through the broker**: in a sequence of calls on one store every `get` answers `null` or the value
last put, exactly when every value it finds is legible. -/
theorem kv_answers_iff (atod : Str → Float64) (impls : Implementations) (calls : List (KvCall Y)) :
    (∀ before c key, GetAfter calls before c key →
      KvAnswer atod (lastPut key (before.map (·.request))) (c.dispatch (kvRun impls before)).1) ↔
    ∀ before c key, GetAfter calls before c key →
      ∀ v, lastPut key (before.map (·.request)) = some v → Legible v := by
  refine forall_congr' fun before => forall_congr' fun c => forall_congr' fun key => forall_congr' fun hget => ?_
  rw [← kvRun_findOpt impls before key]
  exact c.answer_iff atod hget.2 (kvRun impls before)

end

/-! ### Every request has a payload -/

theorem parsePayload_append {op : Str} (hop : 10 ∉ op) (arg : Str) : parsePayload (op ++ 10 :: arg) = (op, arg) := by
  have hindex : indexOpt (op ++ 10 :: arg) 10 = some op.length := by
    have hnone : op.findIdx? (· == 10) = none := by
      rw [List.findIdx?_eq_none_iff]
      intro c hc
      exact beq_false_of_ne fun h => hop (h ▸ hc)
    simp [indexOpt, List.findIdx?_append, hnone, List.findIdx?_cons]
  rw [parsePayload, hindex]
  simp

def KvRequest.operation : KvRequest → Str
  | .put _ _ => str "kv.put"
  | .get _ => str "kv.get"

/-- The argument of a request. -/
def KvRequest.fields : KvRequest → List (Str × Json)
  | .put key value => [(str "key", .string key), (str "value", .string value)]
  | .get key => [(str "key", .string key)]

def KvRequest.payload (r : KvRequest) : Str := r.operation ++ 10 :: JsonText.print (.assoc r.fields)

/-- Whatever the key and the value are, a payload carries them. -/
theorem carries_payload (r : KvRequest) : Carries JsonText.plainYojson r.payload r := by
  have hplain : (Json.assoc r.fields).Plain := by
    refine .assoc fun m hm => ?_
    cases r with
    | put key value =>
      simp only [KvRequest.fields, List.mem_cons, List.not_mem_nil, or_false] at hm
      rcases hm with rfl | rfl
      · exact .string key
      · exact .string value
    | get key =>
      simp only [KvRequest.fields, List.mem_singleton] at hm
      subst hm
      exact .string key
  have hread := JsonText.readsBackPlain_plainYojson _ hplain
  have hnewline : 10 ∉ r.operation := by
    cases r with
    | put key value => exact (by decide : 10 ∉ str "kv.put")
    | get key => exact (by decide : 10 ∉ str "kv.get")
  have hparse : parsePayload r.payload = (r.operation, JsonText.print (.assoc r.fields)) :=
    parsePayload_append hnewline _
  cases r with
  | put key value => exact ⟨by rw [hparse]; rfl, _, by rw [hparse]; exact hread, rfl, rfl⟩
  | get key => exact ⟨by rw [hparse]; rfl, _, by rw [hparse]; exact hread, rfl⟩

def KvRequest.call (r : KvRequest) : KvCall JsonText.plainYojson :=
  { payload := r.payload, policy := Policy.empty, sys := quietSystem, request := r, carries := carries_payload r }

/-- `é` is stored, but what `kv.get` answers for it, `"\195\169"`, is no JSON. -/
theorem kv_get_accent :
    ¬ ∀ before c key, GetAfter [(KvRequest.put (str "k") [0xc3, 0xa9]).call, (KvRequest.get (str "k")).call] before c key →
      KvAnswer (fun _ => ⟨0⟩) (lastPut key (before.map (·.request))) (c.dispatch (kvRun freshImpls before)).1 := by
  intro h
  have hget := h [(KvRequest.put (str "k") [0xc3, 0xa9]).call] (KvRequest.get (str "k")).call (str "k") ⟨⟨[], rfl⟩, rfl⟩
  rw [← kvRun_findOpt freshImpls] at hget
  have hlegible := ((KvRequest.get (str "k")).call.answer_iff _ rfl _).1 hget [0xc3, 0xa9] (by rw [kvRun_findOpt]; rfl)
  exact absurd hlegible (by decide)

end MirageLambda
