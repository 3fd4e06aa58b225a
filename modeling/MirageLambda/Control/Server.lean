import MirageLambda.Control.Admission
import MirageLambda.Control.Scheduler
import MirageLambda.Control.WorkerPool
import MirageLambda.Lib.Run

/-!
# The control plane (control/mirage_lambda_control.ml)

The state of the server, its handlers and the request callback. `ServerState` also holds what the source
keeps elsewhere in the process or on the machine: the C side of the engines (`qjs`) and the files (`fs`).
An HTTP request is what the callback reads of it; `Env` is what a handler meets outside the program while
it runs. Requests are handled one after the other: no handler yields before it is done.

A handler is a `Prog` that never ends in `Error`: the source answers every error with a response, and an
exception leaves the handler with the state as it is then.
-/

namespace MirageLambda
open OCaml Qjs

/-- `config` (mirage_lambda_control.ml:10). -/
structure Config where
  bindAddr : Str
  bindPort : Int
  artifactRoot : Str
  checkpointPath : Str
  devToken : Str
deriving DecidableEq, Repr

/-- `default_config` (mirage_lambda_control.ml:18), started in `cwd`. -/
def defaultConfig (cwd : Str) : Config :=
  { bindAddr := str "127.0.0.1"
    bindPort := 8080
    artifactRoot := concat cwd (str ".mirage-lambda/objects")
    checkpointPath := concat cwd (str ".mirage-lambda/registry.json")
    devToken := str "dev-token" }

/-- `state` (mirage_lambda_control.ml:26), with the files and the C side. -/
structure ServerState where
  config : Config
  artifactStore : ArtifactStore
  registry : Registry
  admission : Admission
  scheduler : Scheduler
  invocations : Hashtbl InvocationId InvocationResult
  fs : FileSystem
  qjs : Qjs.State

/-- `make_state` (mirage_lambda_control.ml:35), in a new process. -/
def makeState (config : Config) (fs : FileSystem) : Outcome Error ServerState := do
  let made := ArtifactStore.make fs config.artifactRoot
  let artifactStore ← made.1
  pure { config, artifactStore
         registry := Registry.make (some config.checkpointPath)
         admission := Admission.make
         scheduler := Scheduler.make
         invocations := .empty
         fs := made.2
         qjs := .init }

/-! ## Responses -/

structure Response where
  status : Nat
  body : Str
deriving DecidableEq, Repr

/-- `error_response` (mirage_lambda_control.ml:47). -/
def errorResponse (Y : Yojson) (status : Nat) (code : String) (message : Str) : Response :=
  { status, body := Y.toString (.assoc [(str "error",
      .assoc [(str "code", .string (str code)), (str "message", .string message)])]) }

/-- What a handler meets outside: the clock, printed and in milliseconds, and what `run_one` meets. -/
structure Env where
  createdAt : Str
  nowMs : Int64
  worker : WorkerEnv

/-- A handler. -/
abbrev Handler := Prog ServerState Empty

/-- `match r with Error e -> … | Ok a -> …`. -/
def onResult {ε α β : Type} (r : Outcome ε α) (onError : ε → Handler β) (onOk : α → Handler β) : Handler β :=
  match r with
  | .ok a => onOk a
  | .error e => onError e
  | .raised x => Prog.lift (.raised x)

/-! ## The handlers -/

/-- `Artifact_store.put_if_absent state.artifact_store`. -/
def putArtifact (digest : Digest) (body : Str) : Handler (Outcome Error ArtifactStore.Put) := fun s =>
  let put := s.artifactStore.putIfAbsent s.fs digest body
  (.ok put.1, { s with fs := put.2 })

/-- `Registry.publish_revision state.registry`. -/
def publishRevision (Y : Yojson) (tenant : TenantId) (functionName : FunctionName) (revision : Registry.Revision) :
    Handler (Outcome Error Unit) := fun s =>
  let published := s.registry.publishRevision Y s.fs tenant functionName revision
  (.ok published.1, { s with registry := published.2.1, fs := published.2.2 })

/-- `Registry.move_alias state.registry ~precondition:None`. -/
def moveAlias (Y : Yojson) (tenant : TenantId) (functionName : FunctionName) (alias_ : Alias)
    (revision : RevisionId) : Handler (Outcome Error Unit) := fun s =>
  let moved := s.registry.moveAlias Y s.fs tenant functionName alias_ revision none
  (.ok moved.1, { s with registry := moved.2.1, fs := moved.2.2 })

/-- `handle_deploy` (mirage_lambda_control.ml:69). -/
def handleDeploy (Y : Yojson) (env : Env) (tenant : TenantId) (functionName : FunctionName) (body : Str) :
    Handler Response :=
  onResult (Bundle.parse Y body)
    (fun e => pure (errorResponse Y 400 "INVALID_REQUEST" e.toString))
  fun bundle =>
    let manifest := bundle.manifest
    let manifestJson := bundle.manifestJson.toString
    let digest := Sha256.toHex (Sha256.hash body)
    onResult (Digest.ofString digest)
      (fun _ => pure (errorResponse Y 400 "INVALID_REQUEST" (str "bad digest")))
    fun digestT => do
      let put ← putArtifact digestT body
      onResult put (fun e => pure (errorResponse Y 500 "INTERNAL" e.toString)) fun _ => do
        let revision : Registry.Revision :=
          { digest := digestT, manifestJson, runtime := manifest.runtime, createdAt := env.createdAt }
        let published ← publishRevision Y tenant functionName revision
        onResult published (fun e => pure (errorResponse Y 409 "CONFLICT" e.toString)) fun _ =>
          let resp : Json := .assoc [
            (str "function", .string functionName.toStr),
            (str "revision", .string (str "sha256:" ++ digest)),
            (str "runtime", .string manifest.runtime),
            (str "bundleBytes", .int body.length)]
          pure { status := 201, body := Y.toString resp }

/-- The `revision` member of the body, or the empty string (mirage_lambda_control.ml:108). -/
def revisionMember : Json → Str
  | .assoc fields => stringMember fields (str "revision")
  | _ => []

/-- `handle_move_alias` (mirage_lambda_control.ml:106). -/
def handleMoveAlias (Y : Yojson) (tenant : TenantId) (functionName : FunctionName) (alias_ : Alias)
    (bodyJson : Str) : Handler Response :=
  match Y.fromString bodyJson with
  | .error m => Prog.lift (.raised (.ext "Yojson.Json_error" m))
  | .ok json =>
    onResult (Digest.ofString (revisionMember json))
      (fun _ => pure (errorResponse Y 400 "INVALID_REQUEST" (str "bad revision")))
    fun revId => do
      let moved ← moveAlias Y tenant functionName alias_ revId
      onResult moved (fun e => pure (errorResponse Y 409 "CONFLICT" e.toString)) fun _ =>
        pure { status := 200, body := [123, 125] }

/-- `Admission.admit state.admission`. -/
def admitRequest (tenant : TenantId) (deadlineMs nowMs : Int64) (requestBytes : Int) :
    Handler (Outcome Error Unit) := fun s =>
  let admitted := s.admission.admitRequest tenant deadlineMs nowMs requestBytes
  (.ok admitted.1, { s with admission := admitted.2 })

/-- `Admission.accept_for_execution state.admission`. -/
def acceptForExecution (tenant : TenantId) : Handler (Outcome Error Unit) := fun s =>
  let accepted := s.admission.acceptForExecution tenant
  (.ok accepted.1, { s with admission := accepted.2 })

/-- `Worker_pool.run_one` on the server's store and registry; an `Error` is its value here. -/
def runOnServer (Y : Yojson) (env : WorkerEnv) (invocationId : InvocationId) (tenant : TenantId)
    (functionName : FunctionName) (qualifier : Qualifier) (eventJson : Str) (deadlineMs : Int64) :
    Handler (Except Error InvocationResult) := fun s =>
  let ran := runOne Y env s.artifactStore s.fs s.registry invocationId tenant functionName qualifier eventJson
    deadlineMs s.qjs
  let s := { s with qjs := ran.2 }
  match ran.1 with
  | .ok r => (.ok (.ok r), s)
  | .error e => (.ok (.error e), s)
  | .raised x => (.raised x, s)

/-- The text for a result (mirage_lambda_control.ml:156-160). -/
def resultBody : Completion → Str
  | .fulfilled json => json
  | .rejected msg => str "\x7b\"error\":\x7b\"message\":" ++ camlString msg ++ str "\x7d\x7d"
  | .failed e => str "\x7b\"error\":\x7b\"message\":" ++ camlString e.toString ++ str "\x7d\x7d"
  | .timeout e => str "\x7b\"error\":\x7b\"message\":" ++ camlString e.toString ++ str "\x7d\x7d"

/-- The answer to a synchronous invocation that ran (mirage_lambda_control.ml:153-166). -/
def respond (Y : Yojson) (invocationId : InvocationId) (result : Except Error InvocationResult) : Handler Response :=
  match result with
  | .ok r => do
    Prog.modify fun s => { s with invocations := s.invocations.replace invocationId r }
    let body := resultBody r.result
    let resp : Json := .assoc [(str "invocationId", .string invocationId.toStr), (str "durationMs", .float r.durationMs)]
    pure { status := 200, body := Y.toString resp ++ [10] ++ body }
  | .error e => pure (errorResponse Y 404 "NOT_FOUND" e.toString)

/-- What runs once the execution is counted (mirage_lambda_control.ml:147-166). -/
def invokeAccepted (Y : Yojson) (env : Env) (invocationId : InvocationId) (tenant : TenantId)
    (functionName : FunctionName) (qualifier body : Str) (deadline : Int64) : Handler Response := do
  let qualifier ← Prog.lift (Qualifier.ofStringExn qualifier)
  let result ← runOnServer Y env.worker invocationId tenant functionName qualifier body deadline
  Prog.modify fun s => { s with admission := s.admission.release tenant }
  respond Y invocationId result

/-- The synchronous half of `handle_invoke` (mirage_lambda_control.ml:142-166). -/
def invokeSync (Y : Yojson) (env : Env) (invocationId : InvocationId) (tenant : TenantId)
    (functionName : FunctionName) (qualifier body : Str) (deadline : Int64) : Handler Response := do
  let accepted ← acceptForExecution tenant
  onResult accepted (fun e => pure (errorResponse Y 429 "RATE_OR_QUOTA_EXCEEDED" e.toString)) fun _ =>
    invokeAccepted Y env invocationId tenant functionName qualifier body deadline

/-- The asynchronous half (mirage_lambda_control.ml:132-140). -/
def invokeAsync (Y : Yojson) (env : Env) (invocationId : InvocationId) (tenant : TenantId)
    (functionName : FunctionName) (qualifier body : Str) (deadline : Int64) : Handler Response := do
  let qualifier ← Prog.lift (Qualifier.ofStringExn qualifier)
  let pending : Scheduler.Pending :=
    { invocationId, tenant, functionName, qualifier, eventJson := body, deadlineMs := deadline
      enqueueTimeMs := env.nowMs }
  Prog.modify fun s => { s with scheduler := s.scheduler.enqueue pending }
  pure { status := 202, body := Y.toString (.assoc [(str "invocationId", .string invocationId.toStr)]) }

/-- `handle_invoke` (mirage_lambda_control.ml:121). -/
def handleInvoke (Y : Yojson) (env : Env) (tenant : TenantId) (functionName : FunctionName) (qualifier : Str)
    (async : Bool) (body : Str) : Handler Response := do
  let s ← Prog.get
  let invocationId ← Prog.lift (InvocationId.ofStringExn (str "inv-" ++ decimal (s.invocations.length + 1)))
  let now := env.nowMs
  let deadline := now + 5000
  let admitted ← admitRequest tenant deadline now body.length
  onResult admitted (fun e => pure (errorResponse Y 429 "RATE_OR_QUOTA_EXCEEDED" e.toString)) fun _ =>
    if async then invokeAsync Y env invocationId tenant functionName qualifier body deadline
    else invokeSync Y env invocationId tenant functionName qualifier body deadline

/-! ## The callback -/

inductive HttpMethod where
  | post | put | other
deriving DecidableEq, Repr

/-- What the callback reads of a request: `Uri.path`, the `authorization` header, the body. -/
structure HttpRequest where
  meth : HttpMethod
  path : Str
  authorization : Option Str
  body : Str
deriving DecidableEq, Repr

/-- `check_auth` (mirage_lambda_control.ml:60). -/
def checkAuth (config : Config) (request : HttpRequest) : Bool :=
  match request.authorization with
  | some auth =>
    if auth.length > 7 && auth.take 7 = str "Bearer " then auth.drop 7 = config.devToken else false
  | none => false

/-- `match tenant_t, fn_t with Ok t, Ok f -> … | _ -> …`. -/
def onIds (tenant fn : Str) (bad : Validation → Handler Response) (k : TenantId → FunctionName → Handler Response) :
    Handler Response :=
  onResult (TenantId.ofString tenant) bad fun t => onResult (FunctionName.ofString fn) bad fun f => k t f

/-- `callback` (mirage_lambda_control.ml:170). -/
def callback (Y : Yojson) (env : Env) (request : HttpRequest) : Handler Response := do
  let state ← Prog.get
  let parts := (splitOnChar (chr '/') request.path).filter fun s => s != []
  let noRoute : Handler Response := pure (errorResponse Y 404 "NOT_FOUND" (str "no route: " ++ request.path))
  let badIds : Validation → Handler Response := fun _ =>
    pure (errorResponse Y 400 "INVALID_REQUEST" (str "bad identifiers"))
  if request.path = str "/healthz" then pure { status := 200, body := str "\x7b\"status\":\"ok\"\x7d" }
  else if !checkAuth state.config request then
    pure (errorResponse Y 401 "UNAUTHENTICATED" (str "missing or invalid bearer token"))
  else match request.meth, parts with
    | .post, [v1, tenants, tenant, functions, fn, versions] =>
      if v1 = str "v1" ∧ tenants = str "tenants" ∧ functions = str "functions" ∧ versions = str "versions" then
        onIds tenant fn (fun e => pure (errorResponse Y 400 "INVALID_REQUEST" e.toString)) fun t f =>
          handleDeploy Y env t f request.body
      else noRoute
    | .put, [v1, tenants, tenant, functions, fn, aliases, alias_] =>
      if v1 = str "v1" ∧ tenants = str "tenants" ∧ functions = str "functions" ∧ aliases = str "aliases" then
        onIds tenant fn badIds fun t f => onResult (Alias.ofString alias_) badIds fun a =>
          handleMoveAlias Y t f a request.body
      else noRoute
    | .post, [v1, invoke, tenant, fn, qualifier] =>
      if v1 = str "v1" ∧ invoke = str "invoke" then
        onIds tenant fn badIds fun t f => handleInvoke Y env t f qualifier false request.body
      else if v1 = str "v1" ∧ invoke = str "invoke-async" then
        onIds tenant fn badIds fun t f => handleInvoke Y env t f qualifier true request.body
      else noRoute
    | _, _ => noRoute

/-- The route of a deploy. -/
theorem callback_deploy {Y : Yojson} {env : Env} {request : HttpRequest} {s : ServerState} {t : TenantId}
    {f : FunctionName} (hmeth : request.meth = .post) (hpath : request.path ≠ str "/healthz")
    (hauth : checkAuth s.config request = true)
    (hparts : ((splitOnChar (chr '/') request.path).filter fun s => s != []) =
      [str "v1", str "tenants", t.toStr, str "functions", f.toStr, str "versions"]) :
    callback Y env request s = handleDeploy Y env t f request.body s := by
  unfold callback
  rw [Prog.get_bind]
  simp only [hparts, hpath, hauth, hmeth, if_false, Bool.not_true, Bool.false_eq_true, and_self, if_true, onIds,
    onResult]
  rw [show TenantId.ofString t.toStr = .ok t from Checked.ofString_toStr t,
    show FunctionName.ofString f.toStr = .ok f from Checked.ofString_toStr f]

/-! ## Runs -/

/-- The answer to a request, with its surroundings. An exception that leaves the callback is answered by the HTTP
library. -/
def answerTo (Y : Yojson) (s : ServerState) (r : HttpRequest × Env) : Outcome Empty Response :=
  (callback Y r.2 r.1 s).1

/-- The state after it. -/
def after (Y : Yojson) (s : ServerState) (r : HttpRequest × Env) : ServerState := (callback Y r.2 r.1 s).2

/-- The request is the end of the process. -/
def aborts (Y : Yojson) (s : ServerState) (r : HttpRequest × Env) : Bool :=
  match answerTo Y s r with
  | .raised .aborted => true
  | _ => false

/-- The requests of a run that the process survives, in the order they are handled. -/
def served (Y : Yojson) (s : ServerState) (requests : List (HttpRequest × Env)) : List (HttpRequest × Env) :=
  Run.survived (after Y) (aborts Y) s requests

/-- A run of the server: the state after the last request, or the one that the request came upon that ended it. -/
def handleAll (Y : Yojson) (s : ServerState) (requests : List (HttpRequest × Env)) : ServerState :=
  (served Y s requests).foldl (after Y) s

theorem aborts_eq_false {Y : Yojson} {s : ServerState} {r : HttpRequest × Env} :
    aborts Y s r = false ↔ answerTo Y s r ≠ .raised .aborted := by
  unfold aborts
  split
  · rename_i h
    simp [h]
  · rename_i h
    simpa using h

/-- Every request that is served finds a living process, and leaves one. -/
theorem along_served (Y : Yojson) (s : ServerState) (requests : List (HttpRequest × Env)) :
    Run.Along (after Y) (fun s r => aborts Y s r = false) s (served Y s requests) :=
  Run.along_survived s requests

theorem mem_of_mem_served {Y : Yojson} {s : ServerState} {requests : List (HttpRequest × Env)} {r : HttpRequest × Env}
    (h : r ∈ served Y s requests) : r ∈ requests :=
  (Run.survived_prefix s requests).subset h

theorem handleAll_nil {Y : Yojson} {s : ServerState} : handleAll Y s [] = s := rfl

theorem served_cons {Y : Yojson} {s : ServerState} {r : HttpRequest × Env} (h : aborts Y s r = false)
    (rest : List (HttpRequest × Env)) : served Y s (r :: rest) = r :: served Y (after Y s r) rest := by
  rw [served, Run.survived, h, if_neg Bool.false_ne_true]
  rfl

theorem served_singleton {Y : Yojson} {s : ServerState} {r : HttpRequest × Env} (h : aborts Y s r = false) :
    served Y s [r] = [r] :=
  served_cons h []

theorem handleAll_cons {Y : Yojson} {s : ServerState} {r : HttpRequest × Env} (h : aborts Y s r = false)
    (rest : List (HttpRequest × Env)) : handleAll Y s (r :: rest) = handleAll Y (after Y s r) rest := by
  rw [handleAll, served_cons h]
  rfl

theorem handleAll_singleton {Y : Yojson} {s : ServerState} {r : HttpRequest × Env} (h : aborts Y s r = false) :
    handleAll Y s [r] = after Y s r :=
  (handleAll_cons h []).trans handleAll_nil

/-! ## What a request can do -/

/-- An invariant of both continuations is one of the match. -/
theorem maintains_onResult {ε α β : Type} {I : ServerState → Prop} {r : Outcome ε α} {onError : ε → Handler β}
    {onOk : α → Handler β} (herror : ∀ e, Prog.Maintains I (onError e))
    (hok : ∀ a, r = .ok a → Prog.Maintains I (onOk a)) : Prog.Maintains I (onResult r onError onOk) := by
  cases r with
  | ok a => exact hok a rfl
  | error e => exact herror e
  | raised x => exact Prog.maintains_lift I _

theorem maintains_onIds {I : ServerState → Prop} {tenant fn : Str} {bad : Validation → Handler Response}
    {k : TenantId → FunctionName → Handler Response} (hbad : ∀ e, Prog.Maintains I (bad e))
    (hk : ∀ t f, Prog.Maintains I (k t f)) : Prog.Maintains I (onIds tenant fn bad k) :=
  maintains_onResult hbad fun t _ => maintains_onResult hbad fun f _ => hk t f

/-- **What the handlers keep, the callback keeps.** -/
theorem maintains_callback {Y : Yojson} {env : Env} {request : HttpRequest} {I : ServerState → Prop}
    (hdeploy : ∀ t f, Prog.Maintains I (handleDeploy Y env t f request.body))
    (hmove : ∀ t f a, Prog.Maintains I (handleMoveAlias Y t f a request.body))
    (hinvoke : ∀ t f q async, Prog.Maintains I (handleInvoke Y env t f q async request.body)) :
    Prog.Maintains I (callback Y env request) := by
  have hpure : ∀ r : Response, Prog.Maintains I (pure r : Handler Response) := Prog.maintains_pure I
  refine Prog.Maintains.bind (fun s hs => hs) fun state => ?_
  simp only []
  split
  · exact hpure _
  split
  · exact hpure _
  split
  · split
    · exact maintains_onIds (fun e => hpure _) fun t f => hdeploy t f
    · exact hpure _
  · split
    · exact maintains_onIds (fun e => hpure _) fun t f => maintains_onResult (fun e => hpure _) fun a _ => hmove t f a
    · exact hpure _
  · split
    · exact maintains_onIds (fun e => hpure _) fun t f => hinvoke t f _ _
    split
    · exact maintains_onIds (fun e => hpure _) fun t f => hinvoke t f _ _
    · exact hpure _
  · exact hpure _

/-- … and so does every run. -/
theorem handleAll_induction {Y : Yojson} {I : ServerState → Prop}
    (hstep : ∀ env request, Prog.Maintains I (callback Y env request)) {s : ServerState} (hs : I s)
    (requests : List (HttpRequest × Env)) : I (handleAll Y s requests) :=
  Run.invariant (fun s r hs => hstep r.2 r.1 s hs) hs (served Y s requests)

/-! ## What each handler leaves alone -/

section
variable {Y : Yojson} {env : Env} {I : ServerState → Prop}

/-- A deploy changes the files and the registry only. -/
theorem maintains_handleDeploy_frame (hI : ∀ s registry fs, I s → I { s with registry, fs }) (t : TenantId)
    (f : FunctionName) (body : Str) : Prog.Maintains I (handleDeploy Y env t f body) := by
  have hpure : ∀ r : Response, Prog.Maintains I (pure r : Handler Response) := Prog.maintains_pure I
  refine maintains_onResult (fun _ => hpure _) fun bundle _ => maintains_onResult (fun _ => hpure _) fun d _ => ?_
  refine Prog.Maintains.bind (fun s hs => hI s _ _ hs) fun put => ?_
  refine maintains_onResult (fun _ => hpure _) fun _ _ => ?_
  refine Prog.Maintains.bind (fun s hs => hI s _ _ hs) fun published => ?_
  exact maintains_onResult (fun _ => hpure _) fun _ _ => hpure _

/-- So does moving an alias. -/
theorem maintains_handleMoveAlias_frame (hI : ∀ s registry fs, I s → I { s with registry, fs }) (t : TenantId)
    (f : FunctionName) (al : Alias) (body : Str) : Prog.Maintains I (handleMoveAlias Y t f al body) := by
  have hpure : ∀ r : Response, Prog.Maintains I (pure r : Handler Response) := Prog.maintains_pure I
  unfold handleMoveAlias
  split
  · exact Prog.maintains_lift I _
  · refine maintains_onResult (fun _ => hpure _) fun revId _ => ?_
    refine Prog.Maintains.bind (fun s hs => hI s _ _ hs) fun moved => ?_
    exact maintains_onResult (fun _ => hpure _) fun _ _ => hpure _

/-- An invocation reads the registry and the store and writes neither. -/
theorem maintains_handleInvoke_frame
    (hI : ∀ s admission scheduler invocations qjs, I s → I { s with admission, scheduler, invocations, qjs })
    (t : TenantId) (f : FunctionName) (q : Str) (async : Bool) (body : Str) :
    Prog.Maintains I (handleInvoke Y env t f q async body) := by
  have hpure : ∀ r : Response, Prog.Maintains I (pure r : Handler Response) := Prog.maintains_pure I
  have hadmitted : ∀ d n b, Prog.Maintains I (admitRequest t d n b) := fun d n b s hs => hI s _ _ _ _ hs
  have haccept : Prog.Maintains I (acceptForExecution t) := fun s hs => hI s _ _ _ _ hs
  have hmodify : ∀ g : ServerState → ServerState, (∀ s, I s → I (g s)) →
      Prog.Maintains I (Prog.modify g : Handler Unit) := fun g hg s hs => hg s hs
  have hrun : ∀ inv q d, Prog.Maintains I (runOnServer Y env.worker inv t f q body d) := by
    intro inv q d s hs
    unfold runOnServer
    simp only []
    split <;> exact hI s _ _ _ _ hs
  refine Prog.Maintains.bind (fun s hs => hs) fun state => ?_
  refine Prog.Maintains.bind (Prog.maintains_lift I _) fun inv => ?_
  refine Prog.Maintains.bind (hadmitted _ _ _) fun admitted => ?_
  refine maintains_onResult (fun _ => hpure _) fun _ _ => ?_
  split
  · refine Prog.Maintains.bind (Prog.maintains_lift I _) fun q => ?_
    exact Prog.Maintains.bind (hmodify _ fun s hs => hI s _ _ _ _ hs) fun _ => hpure _
  · refine Prog.Maintains.bind haccept fun accepted => ?_
    refine maintains_onResult (fun _ => hpure _) fun _ _ => ?_
    refine Prog.Maintains.bind (Prog.maintains_lift I _) fun q => ?_
    refine Prog.Maintains.bind (hrun inv q _) fun result => ?_
    refine Prog.Maintains.bind (hmodify _ fun s hs => hI s _ _ _ _ hs) fun _ => ?_
    cases result with
    | ok r => exact Prog.Maintains.bind (hmodify _ fun s hs => hI s _ _ _ _ hs) fun _ => hpure _
    | error e => exact hpure _

end

/-! ### A fresh server in an empty file system -/

/-- A machine on which the engine answers every evaluation with 0. -/
def sampleEnv : Env where
  createdAt := str "2026-08-25T00:00:00Z"
  nowMs := 0
  worker :=
    { alloc := .ok (), malloc := fun _ => true
      js :=
        { load := fun _ => [], call := fun _ => []
          turn := fun _ =>
            { pump := [], reply := fun _ => [], settle := [], check := [], evalInt := fun _ => .ok 0
              finish := [], evalString := fun _ => .ok [] } }
      sys := fun _ _ => { nowMs := 0, memory := none, openfile := .ok (), read := .ok [] }
      durationMs := ⟨0⟩ }

/-- The state after `make_state` in an empty file system. -/
def sampleState : ServerState :=
  { config := defaultConfig (str "/srv")
    artifactStore := ⟨(defaultConfig (str "/srv")).artifactRoot⟩
    registry := Registry.make (some (defaultConfig (str "/srv")).checkpointPath)
    admission := Admission.make
    scheduler := Scheduler.make
    invocations := .empty
    fs := (ArtifactStore.make ⟨fun _ => none⟩ (defaultConfig (str "/srv")).artifactRoot).2
    qjs := .init }

theorem makeState_sample : makeState (defaultConfig (str "/srv")) ⟨fun _ => none⟩ = .ok sampleState := by
  have hmade : (ArtifactStore.make ⟨fun _ => none⟩ (defaultConfig (str "/srv")).artifactRoot).1 =
      .ok ⟨(defaultConfig (str "/srv")).artifactRoot⟩ := by
    decide +kernel
  unfold makeState
  simp only []
  rw [hmade]
  rfl

end MirageLambda
