import MirageLambda.Lib.Outcome

/-!
# Error taxonomy (common/error.ml)

`Validation` is what the identifier, manifest and limit checks return; `Error` is the service
error that leaves a handler. Both keep the field paths and message texts of the source.
-/

namespace MirageLambda
open OCaml

/-- `Error.Validation.t` (error.ml:8). -/
structure Validation where
  field : Str
  reason : Str
deriving DecidableEq, Repr

/-- `Error.Validation.to_string` (error.ml:16). -/
def Validation.toString (v : Validation) : Str := v.field ++ str ": " ++ v.reason

/-- `Error.failure_class` (error.ml:78). -/
inductive FailureClass where
  | clientError | authenticationError | authorizationError | quotaError | packageError
  | functionException | functionRejection | resourceExhaustion | invocationTimeout
  | invocationCancelled | capabilityError | downstreamError | workerProtocolError | workerCrash
  | launcherError | storageError | internalInvariant
deriving DecidableEq, Repr

/-- `Error.code` (error.ml:117). -/
inductive Code where
  | invalidRequest | unauthenticated | forbidden | notFound | conflict | payloadTooLarge
  | invalidManifest | rateOrQuotaExceeded | internal | workerFailure | noCapacity
  | invocationTimeout
deriving DecidableEq, Repr

/-- `Error.http_status` (error.ml:131). -/
def httpStatus : Code → Nat
  | .invalidRequest => 400
  | .unauthenticated => 401
  | .forbidden => 403
  | .notFound => 404
  | .conflict => 409
  | .payloadTooLarge => 413
  | .invalidManifest => 422
  | .rateOrQuotaExceeded => 429
  | .internal => 500
  | .workerFailure => 502
  | .noCapacity => 503
  | .invocationTimeout => 504

/-- `Error.code_to_string` (error.ml:145). -/
def codeToString : Code → Str
  | .invalidRequest => str "INVALID_REQUEST"
  | .unauthenticated => str "UNAUTHENTICATED"
  | .forbidden => str "FORBIDDEN"
  | .notFound => str "NOT_FOUND"
  | .conflict => str "CONFLICT"
  | .payloadTooLarge => str "PAYLOAD_TOO_LARGE"
  | .invalidManifest => str "INVALID_MANIFEST"
  | .rateOrQuotaExceeded => str "RATE_OR_QUOTA_EXCEEDED"
  | .internal => str "INTERNAL"
  | .workerFailure => str "WORKER_FAILURE"
  | .noCapacity => str "NO_CAPACITY"
  | .invocationTimeout => str "INVOCATION_TIMEOUT"

/-- `Error.t` (error.ml:161). -/
structure Error where
  code : Code
  failureClass : FailureClass
  message : Str
  requestId : Option Str
  retryable : Bool
deriving DecidableEq, Repr

/-- `Error.make` with its defaults (error.ml:169). -/
def Error.make (code : Code) (failureClass : FailureClass) (message : Str)
    (retryable : Bool := false) : Error :=
  { code, failureClass, message, requestId := none, retryable }

/-- `Error.to_string` (error.ml:180). -/
def Error.toString (e : Error) : Str :=
  codeToString e.code ++ str " (" ++ decimal (httpStatus e.code) ++ str "): " ++ e.message ++
    match e.requestId with
    | some id => str " [req=" ++ id ++ str "]"
    | none => []

end MirageLambda
