import MirageLambda.Control.Routes

/-!
# Requests without the token

`check_auth` compares one header with the token of the configuration. A request that fails it reaches no handler:
whatever such requests are mixed into a run, the server ends in the same state and gives the others the same answers.
-/

namespace MirageLambda
open OCaml

/-- A request passes exactly when its header is `Bearer`, a space and the token; with an empty token none does. -/
theorem checkAuth_iff {config : Config} {request : HttpRequest} :
    checkAuth config request = true ↔
      config.devToken ≠ [] ∧ request.authorization = some (str "Bearer " ++ config.devToken) := by
  have hlen : (str "Bearer ").length = 7 := rfl
  unfold checkAuth
  cases request.authorization with
  | none => simp
  | some auth =>
    simp only [Option.some_inj, Bool.and_eq_true, decide_eq_true_eq]
    constructor
    · intro h
      split at h
      · rename_i hauth
        obtain ⟨hlong, hscheme⟩ := hauth
        have htoken : auth.drop 7 = config.devToken := by simpa using h
        refine ⟨?_, ?_⟩
        · intro hempty
          have hdrop := congrArg List.length htoken
          rw [hempty, List.length_drop, List.length_nil] at hdrop
          omega
        · rw [← List.take_append_drop 7 auth, hscheme, htoken]
      · cases h
    · rintro ⟨hne, rfl⟩
      have hpos := List.length_pos_of_ne_nil hne
      have htake : (str "Bearer " ++ config.devToken).take 7 = str "Bearer " := List.take_left' hlen
      have hdrop : (str "Bearer " ++ config.devToken).drop 7 = config.devToken := List.drop_left' hlen
      rw [if_pos ⟨by rw [List.length_append]; omega, htake⟩, hdrop]
      simp

/-- What a request without the token is answered (mirage_lambda_control.ml:175-177). -/
def outsideAnswer (Y : Yojson) (request : HttpRequest) : Response :=
  if request.path = str "/healthz" then { status := 200, body := str "\x7b\"status\":\"ok\"\x7d" }
  else errorResponse Y 401 "UNAUTHENTICATED" (str "missing or invalid bearer token")

theorem callback_of_unauthorized (Y : Yojson) (env : Env) {request : HttpRequest} {s : ServerState}
    (h : checkAuth s.config request = false) :
    callback Y env request s = (.ok (outsideAnswer Y request), s) := by
  rw [callback_eq_under, callbackUnder, outsideAnswer]
  simp only [h, Bool.not_false, if_true]
  split
  · rfl
  · rfl

/-- The requests with the token own the server. -/
theorem unwinds_authorized (Y : Yojson) (config : Config) :
    Run.Unwinds (after Y) (answerTo Y) (fun r => checkAuth config r.1 = true)
      (fun s s' => s = s' ∧ s.config = config) where
  others := by
    rintro s s' r ⟨rfl, rfl⟩ hown
    have hsame : after Y s r = s := by
      rw [after, callback_of_unauthorized Y r.2 (by simpa using hown)]
    rw [hsame]
    exact ⟨rfl, rfl⟩
  owner := by
    rintro s s' r ⟨rfl, rfl⟩ -
    exact ⟨rfl, config_callback Y r.2 r.1 s⟩
  result := by
    rintro s s' r ⟨rfl, -⟩ -
    rfl

/-- The requests with the token that are served are those of the run without the others. -/
theorem served_filter (Y : Yojson) (s : ServerState) (requests : List (HttpRequest × Env)) :
    (served Y s requests).filter (fun r => decide (checkAuth s.config r.1 = true)) =
      served Y s (requests.filter fun r => decide (checkAuth s.config r.1 = true)) := by
  refine (unwinds_authorized Y s.config).survived_filter ?_ ?_ ⟨rfl, rfl⟩ requests
  · rintro s s' r ⟨rfl, -⟩ -
    rfl
  · rintro s s' r ⟨-, hconfig⟩ hno
    rw [aborts_eq_false, answerTo, callback_of_unauthorized Y r.2 (by simpa [hconfig] using hno)]
    exact fun h => by cases h

/-- **Requests without the token leave no trace.** The state after any run, and the answers to the requests with the
token, are those of the run without the others; and each of the others is answered without looking at the state. -/
theorem unauthorized_leave_no_trace (Y : Yojson) (s : ServerState) (requests : List (HttpRequest × Env)) :
    let authorized := fun r : HttpRequest × Env => checkAuth s.config r.1 = true
    handleAll Y s requests = handleAll Y s (requests.filter fun r => checkAuth s.config r.1) ∧
      Run.outputs (after Y) (answerTo Y) authorized s (served Y s requests) =
        Run.outputs (after Y) (answerTo Y) authorized s
          (served Y s (requests.filter fun r => checkAuth s.config r.1)) ∧
      ∀ pre r, pre ++ [r] <+: requests → ¬ authorized r →
        answerTo Y (handleAll Y s pre) r = .ok (outsideAnswer Y r.1) := by
  intro authorized
  have hunwinds := unwinds_authorized Y s.config
  have hfilter : (requests.filter fun r => decide (authorized r)) = requests.filter fun r => checkAuth s.config r.1 := by
    congr 1
    funext r
    exact Bool.decide_eq_true
  refine ⟨?_, ?_, ?_⟩
  · rw [← hfilter, handleAll, handleAll, ← served_filter]
    exact (hunwinds.foldl_filter ⟨rfl, rfl⟩ (served Y s requests)).1
  · rw [← hfilter, ← served_filter]
    exact hunwinds.outputs_filter ⟨rfl, rfl⟩ (served Y s requests)
  · intro pre r _ hno
    have hbad : checkAuth (handleAll Y s pre).config r.1 = false := by
      rw [config_handleAll]
      exact Bool.not_eq_true _ ▸ hno
    rw [answerTo, callback_of_unauthorized Y r.2 hbad]

end MirageLambda
