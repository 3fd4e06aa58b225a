import MirageLambda.Lib.Prog
import MirageLambda.Common.BoundedBytes
import MirageLambda.Common.Ids
import MirageLambda.Qjs.Promises

/-!
# The engine interface (qjs/lib/qjs_engine.ml)

The calls of `Qjs_engine` as programs on the state of the C side. A `Script` is what the JavaScript of
one engine does while it is inside a primitive: the host calls it makes, in order, and what the two
expressions of the dispatch loop evaluate to. A script is an arbitrary input; whatever JavaScript does is
one of them.

`Serving` is the state an invocation keeps its engine in: the handle table is what it was after `create`,
up to the runtime in the engine's slot, of which the modules and the payloads waiting in the queue are
known. Each call has a lemma that says how it ends in such a state and what it does to the two lists.
-/

namespace MirageLambda.Qjs
open OCaml

/-! ## JavaScript -/

/-- The two ways an evaluation raises `Failure` (qjs_stubs.c:286-293, 306-311). -/
inductive EvalFailure where
  | threw | notConvertible
deriving DecidableEq, Repr

/-- JavaScript in one turn of the dispatch loop: during the first pump, while the reply to request `k` is
delivered, during the second pump, while the two expressions are evaluated. A reply that finds no promise
runs nothing, so a real script has no calls there. -/
structure Turn where
  pump : List HostCall
  reply : Nat → List HostCall
  settle : List HostCall
  check : List HostCall
  evalInt : Str → Except EvalFailure Int
  finish : List HostCall
  evalString : Str → Except EvalFailure Str

/-- JavaScript of one engine: evaluating a module, evaluating a source text, the turns. -/
structure Script where
  load : Str → List HostCall
  call : Str → List HostCall
  turn : Nat → Turn

/-- Run the host calls of engine `v`. -/
def runJs (v : Int) (calls : List HostCall) (st : State) : State :=
  calls.foldl (fun st call => act st (.hostCall v call)) st

/-! ## The calls -/

/-- `Qjs_engine.error` (qjs_engine.ml:7): the constructor that is ever built. -/
inductive QjsError where
  | engine (msg : Str)
deriving DecidableEq, Repr

/-- `Qjs_host_request.t` (qjs_host_request.ml:19). -/
structure HostRequest where
  id : UInt64
  operation : Str
  payload : BoundedBytes
deriving DecidableEq, Repr

namespace Engine

variable {ε : Type}

/-- `create` (qjs_engine.ml:54). The limits only reach the JavaScript engine. -/
def create (alloc : Except AllocFailure Unit) : Prog State QjsError Int := fun st =>
  let (r, st) := Qjs.create st alloc
  match r with
  | .raised (.failure msg) => (.error (.engine msg), st)
  | r => (r, st)

/-- `install_host` (qjs_engine.ml:87). -/
def installHost (v : Int) : Prog State ε Unit := fun st => (mlqjsInstallHost st v, st)

/-- `set_module` (qjs_engine.ml:81). -/
def setModule (v : Int) (path : ModulePath) (src : Str) (malloc : Bool) : Prog State ε Unit := fun st =>
  mlqjsSetModule st v path.toStr src malloc

/-- `eval_module` (qjs_engine.ml:84). Its caller drops the boolean. -/
def evalModule (v : Int) (path : ModulePath) (js : Script) : Prog State ε Unit := do
  let st ← Prog.get
  Prog.lift (mlqjsEvalModule st v path.toStr)
  Prog.modify (runJs v (js.load path.toStr))

/-- `eval` (qjs_engine.ml:70). -/
def eval (v : Int) (src : Str) (js : Script) : Prog State ε Unit := fun st =>
  match tableGet st.handles v with
  | none => (.raised (.failure (str "mlqjs_eval: stale handle")), st)
  | some _ => (.ok (), runJs v (js.call src) st)

/-- `pump` (qjs_engine.ml:92). Its callers drop the progress hint, and the error for a stale handle. -/
def pump (v : Int) (calls : List HostCall) : Prog State ε Unit := fun st =>
  match tableGet st.handles v with
  | none => (.ok (), st)
  | some _ => (.ok (), runJs v calls st)

/-- `eval_int` (qjs_engine.ml:73); every `Failure` becomes an `Error`. -/
def evalInt (v : Int) (src : Str) (turn : Turn) : Prog State ε (Except QjsError Int) := fun st =>
  match tableGet st.handles v with
  | none => (.ok (.error (.engine (str "mlqjs_eval_int: stale handle"))), st)
  | some _ =>
    let st := runJs v turn.check st
    match turn.evalInt src with
    | .ok n => (.ok (.ok n), st)
    | .error .threw => (.ok (.error (.engine (str "mlqjs_eval_int: eval threw"))), st)
    | .error .notConvertible => (.ok (.error (.engine (str "mlqjs_eval_int: not an int"))), st)

/-- `eval_string` (qjs_engine.ml:77). -/
def evalString (v : Int) (src : Str) (turn : Turn) : Prog State ε (Except QjsError Str) := fun st =>
  match tableGet st.handles v with
  | none => (.ok (.error (.engine (str "mlqjs_eval_string: stale handle"))), st)
  | some _ =>
    let st := runJs v turn.finish st
    match turn.evalString src with
    | .ok s => (.ok (.ok (cString s)), st)
    | .error .threw => (.ok (.error (.engine (str "mlqjs_eval_string: eval threw"))), st)
    | .error .notConvertible =>
      (.ok (.error (.engine (str "mlqjs_eval_string: not a string-convertible"))), st)

/-- The bound on a payload (qjs_engine.ml:109). -/
def maxPayload : Int := 16 * 1024 * 1024

/-- A payload over the bound becomes empty (qjs_engine.ml:108-110). -/
def boundPayload (payload : Str) : BoundedBytes :=
  match BoundedBytes.create maxPayload payload with
  | .ok b => b
  | _ => BoundedBytes.empty maxPayload

/-- `take_host_requests` (qjs_engine.ml:104). -/
def takeHostRequests (v : Int) : Prog State ε (List HostRequest) := do
  let arr ← fun st => mlqjsTakeRequests st v
  pure (arr.map fun r => { id := r.id, operation := r.operation, payload := boundPayload r.payload })

/-- `resolve` (qjs_engine.ml:88): the slot is found, the resolving function runs, the slot is freed. The
text only reaches the JavaScript engine. -/
def resolve (v : Int) (id : UInt64) (_json : Str) (calls : List HostCall) : Prog State ε Unit := fun st =>
  match tableGet st.handles v with
  | none => (.raised (.failure (str "mlqjs_resolve: stale handle")), st)
  | some _ => match promiseFind st.promises id with
    | none => (.ok (), runJs v calls st)
    | some i =>
      let settled := (st.promises i).map fun s => s.resolver.promise
      let st := runJs v calls st
      (.ok (), { st with promises := promiseRemove st.promises i, settled := settled.toList ++ st.settled })

/-- `destroy` (qjs_engine.ml:121). -/
def destroy (v : Int) : Prog State ε Unit := fun st => Qjs.destroy st v

end Engine

/-- Without JavaScript in between, `resolve` is the primitive. -/
theorem Engine.resolve_nil {ε : Type} (v : Int) (id : UInt64) (json : Str) (st : State) :
    Engine.resolve (ε := ε) v id json [] st = mlqjsResolve st v id := by
  unfold Engine.resolve mlqjsResolve
  cases tableGet st.handles v with
  | none => rfl
  | some q =>
    cases promiseFind st.promises id with
    | none => rfl
    | some i => rfl

end MirageLambda.Qjs
