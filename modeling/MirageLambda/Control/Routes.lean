import MirageLambda.Control.Server
import MirageLambda.Lib.Run

/-!
# The routes (control/mirage_lambda_control.ml:170-222)

`callback` answers the health check and the requests without a token itself; every other request has a route, and
where the identifiers of the route are slugs, one handler runs. `callOf` is what the callback makes of a request;
`callback_of_call` and `callback_of_no_call` say that nothing else happens.
-/

namespace MirageLambda
open OCaml

/-- The handler a request is passed to, with its arguments. -/
inductive Call where
  | deploy (tenant : TenantId) (functionName : FunctionName)
  | moveAlias (tenant : TenantId) (functionName : FunctionName) (alias_ : Alias)
  | invoke (tenant : TenantId) (functionName : FunctionName) (qualifier : Str) (async : Bool)
deriving DecidableEq

namespace Call

def tenant : Call → TenantId
  | deploy t _ => t
  | moveAlias t _ _ => t
  | invoke t _ _ _ => t

def handle (Y : Yojson) (env : Env) (body : Str) : Call → Handler Response
  | deploy t f => handleDeploy Y env t f body
  | moveAlias t f a => handleMoveAlias Y t f a body
  | invoke t f q async => handleInvoke Y env t f q async body

end Call

/-- `Ok t, Ok f` (mirage_lambda_control.ml:187). -/
def idsOf (tenant fn : Str) : Option (TenantId × FunctionName) :=
  match TenantId.ofString tenant, FunctionName.ofString fn with
  | .ok t, .ok f => some (t, f)
  | _, _ => none

/-- The same with an alias (mirage_lambda_control.ml:195). -/
def aliasOf (alias_ : Str) : Option Alias :=
  match Alias.ofString alias_ with
  | .ok a => some a
  | _ => none

/-- The route of a path (mirage_lambda_control.ml:182-222): the handler, if the identifiers are slugs. -/
def routeOf : HttpMethod → List Str → Option Call
  | .post, [v1, tenants, tenant, functions, fn, versions] =>
    if v1 = str "v1" ∧ tenants = str "tenants" ∧ functions = str "functions" ∧ versions = str "versions" then
      (idsOf tenant fn).map fun ids => .deploy ids.1 ids.2
    else none
  | .put, [v1, tenants, tenant, functions, fn, aliases, alias_] =>
    if v1 = str "v1" ∧ tenants = str "tenants" ∧ functions = str "functions" ∧ aliases = str "aliases" then
      (idsOf tenant fn).bind fun ids => (aliasOf alias_).map fun a => .moveAlias ids.1 ids.2 a
    else none
  | .post, [v1, invoke, tenant, fn, qualifier] =>
    if v1 = str "v1" ∧ invoke = str "invoke" then
      (idsOf tenant fn).map fun ids => .invoke ids.1 ids.2 qualifier false
    else if v1 = str "v1" ∧ invoke = str "invoke-async" then
      (idsOf tenant fn).map fun ids => .invoke ids.1 ids.2 qualifier true
    else none
  | _, _ => none

/-- The parts of a path between its slashes (mirage_lambda_control.ml:173). -/
def pathParts (path : Str) : List Str := (splitOnChar (chr '/') path).filter fun s => s != []

/-- The call that the callback makes for a request. -/
def callOf (config : Config) (request : HttpRequest) : Option Call :=
  if request.path = str "/healthz" ∨ checkAuth config request = false then none
  else routeOf request.meth (pathParts request.path)

/-! ## What the callback does -/

theorem Slug.ofString_not_raised (label s : Str) (x : Exn) : Slug.ofString label s ≠ .raised x := by
  intro h
  exact (Checked.ofString_returns.2 (validateSlug_returns label s)).not_raises ⟨x, h⟩

/-- Both identifiers are slugs, or the request is answered at once. -/
theorem onIds_cases (tenant fn : Str) {bad : Validation → Handler Response} (r : Validation → Response)
    (hbad : ∀ e, bad e = pure (r e)) (k : TenantId → FunctionName → Handler Response) :
    (∃ t f, idsOf tenant fn = some (t, f) ∧ onIds tenant fn bad k = k t f) ∨
      (idsOf tenant fn = none ∧ ∃ e, onIds tenant fn bad k = pure (r e)) := by
  unfold onIds idsOf
  cases ht : TenantId.ofString tenant with
  | raised x => exact absurd ht (Slug.ofString_not_raised _ _ _)
  | error e => exact Or.inr ⟨rfl, e, hbad e⟩
  | ok t =>
    cases hf : FunctionName.ofString fn with
    | raised x => exact absurd hf (Slug.ofString_not_raised _ _ _)
    | error e => exact Or.inr ⟨rfl, e, hbad e⟩
    | ok f => exact Or.inl ⟨t, f, rfl, rfl⟩

theorem onAlias_cases (alias_ : Str) {bad : Validation → Handler Response} (r : Validation → Response)
    (hbad : ∀ e, bad e = pure (r e)) (k : Alias → Handler Response) :
    (∃ a, aliasOf alias_ = some a ∧ onResult (Alias.ofString alias_) bad k = k a) ∨
      (aliasOf alias_ = none ∧ ∃ e, onResult (Alias.ofString alias_) bad k = pure (r e)) := by
  unfold aliasOf
  cases ha : Alias.ofString alias_ with
  | raised x => exact absurd ha (Slug.ofString_not_raised _ _ _)
  | error e => exact Or.inr ⟨rfl, e, hbad e⟩
  | ok a => exact Or.inl ⟨a, rfl, rfl⟩

/-- The callback once it has read the configuration. -/
def callbackUnder (Y : Yojson) (env : Env) (config : Config) (request : HttpRequest) : Handler Response :=
  let noRoute : Handler Response := pure (errorResponse Y 404 "NOT_FOUND" (str "no route: " ++ request.path))
  let badIds : Validation → Handler Response := fun _ =>
    pure (errorResponse Y 400 "INVALID_REQUEST" (str "bad identifiers"))
  if request.path = str "/healthz" then pure { status := 200, body := str "\x7b\"status\":\"ok\"\x7d" }
  else if !checkAuth config request then
    pure (errorResponse Y 401 "UNAUTHENTICATED" (str "missing or invalid bearer token"))
  else match request.meth, pathParts request.path with
    | .post, [v1, tenants, tenant, functions, fn, versions] =>
      if v1 = str "v1" ∧ tenants = str "tenants" ∧ functions = str "functions" ∧ versions = str "versions" then
        onIds tenant fn (fun e => pure (errorResponse Y 400 "INVALID_REQUEST" e.toString)) fun t f =>
          handleDeploy Y env t f request.body
      else noRoute
    | .put, [v1, tenants, tenant, functions, fn, aliases, alias_] =>
      if v1 = str "v1" ∧ tenants = str "tenants" ∧ functions = str "functions" ∧ aliases = str "aliases" then
        onIds tenant fn badIds fun t f => onResult (Alias.ofString alias_) badIds fun a =>
          handleMoveAlias Y t f a request.body
      else noRoute
    | .post, [v1, invoke, tenant, fn, qualifier] =>
      if v1 = str "v1" ∧ invoke = str "invoke" then
        onIds tenant fn badIds fun t f => handleInvoke Y env t f qualifier false request.body
      else if v1 = str "v1" ∧ invoke = str "invoke-async" then
        onIds tenant fn badIds fun t f => handleInvoke Y env t f qualifier true request.body
      else noRoute
    | _, _ => noRoute

theorem callback_eq_under (Y : Yojson) (env : Env) (request : HttpRequest) (s : ServerState) :
    callback Y env request s = callbackUnder Y env s.config request s := rfl

/-- **One handler runs, or none and the answer is known without the state.** -/
theorem callbackUnder_cases (Y : Yojson) (env : Env) (config : Config) (request : HttpRequest) :
    (∃ call, callOf config request = some call ∧
      callbackUnder Y env config request = call.handle Y env request.body) ∨
    (callOf config request = none ∧ ∃ response, callbackUnder Y env config request = pure response) := by
  unfold callbackUnder callOf
  simp only []
  by_cases hpath : request.path = str "/healthz"
  · rw [if_pos hpath, if_pos (Or.inl hpath)]
    exact Or.inr ⟨rfl, _, rfl⟩
  by_cases hauth : checkAuth config request = false
  · rw [if_neg hpath, if_pos (Or.inr hauth), hauth]
    exact Or.inr ⟨rfl, _, rfl⟩
  have hreach : ¬ (request.path = str "/healthz" ∨ checkAuth config request = false) := not_or.2 ⟨hpath, hauth⟩
  rw [if_neg hpath, if_neg hreach, if_neg (by simpa using hauth)]
  generalize pathParts request.path = parts
  generalize request.meth = meth
  split
  · rename_i v1 tenants tenant functions fn versions
    rw [routeOf]
    split
    · rcases onIds_cases tenant fn _ (fun e => rfl) fun t f => handleDeploy Y env t f request.body with
        ⟨t, f, hids, heq⟩ | ⟨hids, e, heq⟩
      · exact Or.inl ⟨_, by rw [hids]; rfl, heq⟩
      · exact Or.inr ⟨by rw [hids]; rfl, _, heq⟩
    · exact Or.inr ⟨rfl, _, rfl⟩
  · rename_i v1 tenants tenant functions fn aliases alias_
    rw [routeOf]
    split
    · rcases onIds_cases tenant fn _ (fun e => rfl) fun t f => onResult (Alias.ofString alias_)
          (fun _ => pure (errorResponse Y 400 "INVALID_REQUEST" (str "bad identifiers"))) fun a =>
          handleMoveAlias Y t f a request.body with
        ⟨t, f, hids, heq⟩ | ⟨hids, e, heq⟩
      · rw [hids, heq]
        rcases onAlias_cases alias_ _ (fun e => rfl) fun a => handleMoveAlias Y t f a request.body with
          ⟨a, ha, heq'⟩ | ⟨ha, e, heq'⟩
        · exact Or.inl ⟨_, by rw [Option.bind_some, ha]; rfl, heq'⟩
        · exact Or.inr ⟨by rw [Option.bind_some, ha]; rfl, _, heq'⟩
      · exact Or.inr ⟨by rw [hids]; rfl, _, heq⟩
    · exact Or.inr ⟨rfl, _, rfl⟩
  · rename_i v1 invoke tenant fn qualifier
    rw [routeOf]
    split
    · rcases onIds_cases tenant fn _ (fun e => rfl) fun t f =>
          handleInvoke Y env t f qualifier false request.body with
        ⟨t, f, hids, heq⟩ | ⟨hids, e, heq⟩
      · exact Or.inl ⟨_, by rw [hids]; rfl, heq⟩
      · exact Or.inr ⟨by rw [hids]; rfl, _, heq⟩
    split
    · rcases onIds_cases tenant fn _ (fun e => rfl) fun t f =>
          handleInvoke Y env t f qualifier true request.body with
        ⟨t, f, hids, heq⟩ | ⟨hids, e, heq⟩
      · exact Or.inl ⟨_, by rw [hids]; rfl, heq⟩
      · exact Or.inr ⟨by rw [hids]; rfl, _, heq⟩
    · exact Or.inr ⟨rfl, _, rfl⟩
  · rename_i hdeploy hmove hinvoke
    refine Or.inr ⟨?_, _, rfl⟩
    rw [routeOf]
    · exact hdeploy
    · exact hmove
    · exact hinvoke

theorem callback_of_call {Y : Yojson} {env : Env} {request : HttpRequest} {s : ServerState} {call : Call}
    (h : callOf s.config request = some call) :
    callback Y env request s = call.handle Y env request.body s := by
  rw [callback_eq_under]
  rcases callbackUnder_cases Y env s.config request with ⟨call', hcall, heq⟩ | ⟨hno, -⟩
  · rw [h] at hcall
    cases hcall
    rw [heq]
  · rw [h] at hno
    cases hno

/-- A request without a call changes nothing, and is answered alike in all states of the server. -/
theorem callback_of_no_call (Y : Yojson) (env : Env) {config : Config} {request : HttpRequest}
    (h : callOf config request = none) :
    ∃ response, ∀ s : ServerState, s.config = config → callback Y env request s = (.ok response, s) := by
  rcases callbackUnder_cases Y env config request with ⟨call, hcall, -⟩ | ⟨-, response, heq⟩
  · rw [h] at hcall
    cases hcall
  · refine ⟨response, ?_⟩
    rintro s rfl
    rw [callback_eq_under, heq]
    rfl

/-- No request changes the configuration. -/
theorem config_callback (Y : Yojson) (env : Env) (request : HttpRequest) (s : ServerState) :
    (callback Y env request s).2.config = s.config :=
  maintains_callback (I := fun s' => s'.config = s.config)
    (fun t f => maintains_handleDeploy_frame (fun _ _ _ hs => hs) t f request.body)
    (fun t f al => maintains_handleMoveAlias_frame (fun _ _ _ hs => hs) t f al request.body)
    (fun t f q async => maintains_handleInvoke_frame (fun _ _ _ _ _ hs => hs) t f q async request.body) s rfl

theorem config_handleAll (Y : Yojson) (s : ServerState) (requests : List (HttpRequest × Env)) :
    (handleAll Y s requests).config = s.config := by
  exact handleAll_induction (I := fun s' : ServerState => s'.config = s.config)
    (fun env request s' hs' => (config_callback Y env request s').trans hs') rfl requests

end MirageLambda
