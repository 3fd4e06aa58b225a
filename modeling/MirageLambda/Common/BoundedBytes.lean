import MirageLambda.Lib.MachineInt
import MirageLambda.Common.Error

/-!
# Bounded byte strings (common/bounded_bytes.ml)
-/

namespace MirageLambda
open OCaml

/-- `Bounded_bytes.t` (bounded_bytes.ml:9). -/
structure BoundedBytes where
  bytes : Str
  max : Int
deriving DecidableEq, Repr

namespace BoundedBytes

/-- `invalid_payload` (bounded_bytes.ml:6). -/
def invalidPayload (msg : Str) : Error := Error.make .payloadTooLarge .packageError msg

/-- `empty` (bounded_bytes.ml:20). -/
def empty (max : Int) : BoundedBytes := { bytes := [], max }

/-- `create` (bounded_bytes.ml:22). -/
def create (max : Int) (s : Str) : Outcome Error BoundedBytes :=
  if max < 0 then .error (invalidPayload (str "negative bound"))
  else if (s.length : Int) > max then
    .error (invalidPayload
      (str "value length " ++ decimal s.length ++ str " exceeds bound " ++ intToString max))
  else .ok { bytes := s, max }

/-- `of_string` (bounded_bytes.ml:51). -/
def ofString (max : Int) (s : Str) : Outcome Error BoundedBytes := create max s

/-- `append` (bounded_bytes.ml:36). -/
def append (a b : BoundedBytes) : Outcome Error BoundedBytes := do
  let max := min a.max b.max
  let combined ← cat a.bytes b.bytes
  create max combined

/-- `sub` (bounded_bytes.ml:41). The sum of `off` and `len` is one of 63 bits. -/
def sub (t : BoundedBytes) (off len : Int) : Outcome Error BoundedBytes :=
  if off < 0 ∨ len < 0 ∨ wrap 63 (off + len) > t.bytes.length then
    .error (invalidPayload (str "sub out of range"))
  else do
    let bytes ← OCaml.sub t.bytes off len
    pure { t with bytes }

end BoundedBytes
end MirageLambda
