import MirageLambda.Common.Ids

/-!
# Identifiers on the wire (common/protocol.ml)

`Invocation_id` is the part of the protocol that the control plane uses.
-/

namespace MirageLambda
open OCaml

/-- `Invocation_id.is_print` (protocol.ml:25). -/
def isPrint (c : UInt8) : Bool := chr '!' ≤ c && c ≤ chr '~'

/-- `Invocation_id.of_string` (protocol.ml:26). -/
def invocationIdCheck (s : Str) : Outcome Validation Unit :=
  let len := s.length
  if len = 0 ∨ len > 128 then .error ⟨str "invocation_id", str "bad length"⟩
  else match firstBad isPrint s with
    | some c => .error ⟨str "invocation_id", str "non-printable " ++ camlChar c⟩
    | none => .ok ()

abbrev InvocationId : Type := Checked invocationIdCheck

def InvocationId.ofString (s : Str) : Outcome Validation InvocationId := Checked.ofString invocationIdCheck s

/-- `Invocation_id.of_string_exn` (protocol.ml:39). -/
def InvocationId.ofStringExn {ε : Type} (s : Str) : Outcome ε InvocationId :=
  Checked.ofStringExn Validation.toString invocationIdCheck s

end MirageLambda
