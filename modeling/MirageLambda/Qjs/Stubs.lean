import MirageLambda.Qjs.HandleTable
import MirageLambda.Qjs.HostQueue

/-!
# The engine stubs (qjs/c/qjs_stubs.c)

The state of the C side: the handle table with the runtimes, and `g_promises`, one array for all
engines. JavaScript itself is not modelled. What it does shows here as calls of `host.later` and
`host.rpc` on an engine, which can only happen while OCaml is inside a primitive that was given the
engine's handle.

A JavaScript promise is a number. The pair of resolving functions that the C side keeps for it is a
`Resolver`, which remembers the engine (`owner`) it was made in; engines are numbered by `serial` in
the order of their creation. `serial`, `nextSerial`, `nextPromise`, `calls` and `settled` record what
happened and are never looked at by the code.

The C side counts as a holder of JavaScript values. What it holds of an engine are the resolving functions in
the slots of the engine and the promises that `promise table full` returned past (`leaked`); `JS_FreeRuntime`
asserts that no object is left (vendor quickjs.c:2464, and the library is built with assertions), so
`mlqjs_destroy` ends the process while there are any (`retains`). What becomes of the objects when a resolve
settles a promise of another engine is not modelled.

| here | qjs_stubs.c |
|---|---|
| `promiseInsert`, `promiseFind`, `promiseRemove` | 373, 389, 397 |
| `hostCall` | `mlqjs_host_later`, `mlqjs_host_rpc` (404, 444) |
| `mlqjsResolve`, `mlqjsTakeRequests` | 510, 581 |
| `mlqjsSetModule`, `mlqjsEvalModule`, `mlqjsInstallHost` | 313, 337, 545 |
| `retains`, `destroy` | 236, quickjs.c:2405 |
-/

namespace MirageLambda.Qjs
open OCaml

/-- `mlqjs_runtime`: the queue and the module map. The contexts belong to the JavaScript engine; what becomes of the
limits is in `Qjs.Limits`. -/
structure Runtime where
  serial : Nat
  requests : HostQueue
  modules : List (Str × Str)

/-- The resolving functions of a promise. -/
structure Resolver where
  owner : Nat
  promise : Nat
deriving DecidableEq, Repr

/-- `mlqjs_promise_slot` in use. -/
structure PromiseSlot where
  id : UInt64
  resolver : Resolver
deriving DecidableEq, Repr

def maxPromises : Nat := 256

/-- A host call that returned a promise: the engine, the promise, and the id of the request. -/
structure Call where
  handle : Int
  owner : Nat
  promise : Nat
  id : UInt64
deriving DecidableEq, Repr

structure State where
  handles : Table Runtime
  promises : Fin maxPromises → Option PromiseSlot
  nextSerial : Nat
  nextPromise : Nat
  calls : List Call
  settled : List Nat
  /-- The engines of the promises that nobody frees (qjs_stubs.c:438, 489). -/
  leaked : List Nat

def State.init : State :=
  { handles := .empty, promises := fun _ => none, nextSerial := 0, nextPromise := 0, calls := [], settled := []
    leaked := [] }

/-! ## The promise table -/

/-- `promise_insert` (qjs_stubs.c:373): the first free slot, or `none` when the table is full. -/
def promiseInsert (ps : Fin maxPromises → Option PromiseSlot) (s : PromiseSlot) :
    Option (Fin maxPromises → Option PromiseSlot) :=
  ((List.finRange maxPromises).find? fun i => (ps i).isNone).map fun i => Function.update ps i (some s)

/-- `promise_find` (qjs_stubs.c:389): the first slot in use with this id. -/
def promiseFind (ps : Fin maxPromises → Option PromiseSlot) (id : UInt64) : Option (Fin maxPromises) :=
  (List.finRange maxPromises).find? fun i => match ps i with
    | some s => s.id == id
    | none => false

/-- `promise_remove` (qjs_stubs.c:397). -/
def promiseRemove (ps : Fin maxPromises → Option PromiseSlot) (i : Fin maxPromises) :
    Fin maxPromises → Option PromiseSlot := Function.update ps i none

/-! ## The primitives -/

/-- Write to a runtime through its pointer. -/
def Table.modify {ρ : Type} (t : Table ρ) (i : Fin tableCap) (f : ρ → ρ) : Table ρ :=
  { t with table := Function.update t.table i ((t.table i).map fun c => { c with runtime := f c.runtime }) }

/-- `mlqjs_create` (qjs_stubs.c:180) with a new, empty runtime. -/
def create {ε : Type} (st : State) (alloc : Except AllocFailure Unit) : Outcome ε Int × State :=
  let q : Runtime := { serial := st.nextSerial, requests := .init, modules := [] }
  let created := mlqjsCreate st.handles (alloc.map fun _ => q)
  (created.1, { st with handles := created.2, nextSerial := st.nextSerial + 1 })

/-- The C side holds JavaScript values of the engine: the resolving functions in a slot, or a leaked promise. -/
def State.retains (st : State) (serial : Nat) : Bool :=
  ((List.finRange maxPromises).any fun j => match st.promises j with
    | some s => s.resolver.owner == serial
    | none => false) || st.leaked.contains serial

/-- The assertion of `JS_FreeRuntime` for the engine that `mlqjs_destroy` frees, if there is one. -/
def State.freesRuntime (st : State) (v : Int) : Bool :=
  match tableGet st.handles v with
  | some (_, q) => !st.retains q.serial
  | none => true

/-- `mlqjs_destroy` (qjs_stubs.c:236). It empties the slot of the handle table and does not touch `g_promises`, so the
process aborts in `JS_FreeRuntime` when the engine still has promises there. -/
def destroy {ε : Type} (st : State) (v : Int) : Outcome ε Unit × State :=
  (if st.freesRuntime v then .ok () else .raised .aborted, { st with handles := mlqjsDestroy st.handles v })

/-- `host.later(x)` or `host.rpc(op, arg)`, with what `JS_ToInt32`, `JS_ToCString` and
`JS_JSONStringify` made of the arguments. `rejected` is a call that throws before it reaches the queue:
too few arguments, one that cannot be converted, no memory. -/
inductive HostCall where
  | later (arg : Int)
  | rpc (op arg : Str)
  | rejected (msg : Str)
deriving DecidableEq, Repr

/-- The request a call enqueues: operation and payload (qjs_stubs.c:427, 473-479). -/
def HostCall.request : HostCall → Except Str (Str × Str)
  | .later arg => .ok (str "host.later", intToString arg)
  | .rpc op arg => .ok (str "host.rpc", cString op ++ [10] ++ cString arg)
  | .rejected msg => .error msg

/-- What a call throws when its queue is full (qjs_stubs.c:434, 484). -/
def HostCall.queueFull : HostCall → Str
  | .later _ => str "host request queue full"
  | _ => str "queue full"

/-- `mlqjs_host_later` and `mlqjs_host_rpc` on the engine in slot `i` (qjs_stubs.c:404, 444): the
promise, or the JavaScript exception. -/
def hostCall (st : State) (v : Int) (i : Fin tableCap) (q : Runtime) (call : HostCall) :
    Except Str Nat × State :=
  match call.request with
  | .error msg => (.error msg, st)
  | .ok (op, payload) =>
    let promise := st.nextPromise
    let st := { st with nextPromise := st.nextPromise + 1 }
    let pushed := q.requests.push op payload
    let id := pushed.1
    let st := { st with handles := st.handles.modify i fun q => { q with requests := pushed.2 } }
    if id = 0 then (.error call.queueFull, st)
    else match promiseInsert st.promises ⟨id, ⟨q.serial, promise⟩⟩ with
      | none => (.error (str "promise table full"), { st with leaked := q.serial :: st.leaked })
      | some promises =>
        (.ok promise, { st with promises, calls := ⟨v, q.serial, promise, id⟩ :: st.calls })

/-- `mlqjs_resolve` (qjs_stubs.c:510). A result that is no JSON rejects the promise; both settle it. -/
def mlqjsResolve {ε : Type} (st : State) (v : Int) (id : UInt64) : Outcome ε Unit × State :=
  match tableGet st.handles v with
  | none => (.raised (.failure (str "mlqjs_resolve: stale handle")), st)
  | some _ => match promiseFind st.promises id with
    | none => (.ok (), st)
    | some i =>
      let settled := ((st.promises i).map fun s => s.resolver.promise).toList ++ st.settled
      (.ok (), { st with promises := promiseRemove st.promises i, settled })

/-- `mlqjs_take_requests` (qjs_stubs.c:581). -/
def mlqjsTakeRequests {ε : Type} (st : State) (v : Int) : Outcome ε (List Request) × State :=
  match tableGet st.handles v with
  | none => (.raised (.failure (str "mlqjs_take_requests: stale handle")), st)
  | some (i, q) =>
    let taken := q.requests.takeAll
    (.ok taken.1, { st with handles := st.handles.modify i fun q => { q with requests := taken.2 } })

/-- `mlqjs_set_module` (qjs_stubs.c:313); `malloc` says whether the copy of the source could be
allocated. -/
def mlqjsSetModule {ε : Type} (st : State) (v : Int) (path source : Str) (malloc : Bool) :
    Outcome ε Unit × State :=
  match tableGet st.handles v with
  | none => (.raised (.failure (str "mlqjs_set_module: stale handle")), st)
  | some (i, q) =>
    if q.modules.length ≥ 256 then (.raised (.failure (str "mlqjs_set_module: too many modules")), st)
    else if path.length ≥ 512 then (.raised (.failure (str "mlqjs_set_module: path too long")), st)
    else if !malloc then (.raised (.failure (str "mlqjs_set_module: oom")), st)
    else (.ok (), { st with handles := st.handles.modify i fun q => { q with modules := q.modules ++ [(path, source)] } })

/-- `mlqjs_eval_module` (qjs_stubs.c:337) up to the evaluation: is the entrypoint in the map? -/
def mlqjsEvalModule {ε : Type} (st : State) (v : Int) (path : Str) : Outcome ε Unit :=
  match tableGet st.handles v with
  | none => .raised (.failure (str "mlqjs_eval_module: stale handle"))
  | some (_, q) =>
    if q.modules.any fun m => cString m.1 == cString path then .ok ()
    else .raised (.failure (str "mlqjs_eval_module: entrypoint not found"))

/-- `mlqjs_install_host` (qjs_stubs.c:545). -/
def mlqjsInstallHost {ε : Type} (st : State) (v : Int) : Outcome ε Unit :=
  match tableGet st.handles v with
  | none => .raised (.failure (str "mlqjs_install_host: stale handle"))
  | some _ => .ok ()

end MirageLambda.Qjs
