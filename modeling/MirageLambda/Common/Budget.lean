import MirageLambda.Common.Error

/-!
# Engine limits (common/budget.ml)

`Engine_limits.t` and its constructor; OCaml `int` fields are `Int`, whose sign the constructor
checks.
-/

namespace MirageLambda
open OCaml

/-- `Budget.Engine_limits.t` (budget.ml:7). -/
structure EngineLimits where
  jsHeapBytes : Int
  nativeOverheadBytes : Int
  stackBytes : Int
  timeoutMs : Int
  cpuMs : Int
  maxHostCalls : Int
  maxPendingPromises : Int
  maxLogBytes : Int
  maxOutboundBytes : Int
  maxRedirects : Int
  maxChildInvocations : Int
deriving DecidableEq, Repr

/-- The limits in field order, as `make` tests them. -/
def EngineLimits.fields (l : EngineLimits) : List Int :=
  [l.jsHeapBytes, l.nativeOverheadBytes, l.stackBytes, l.timeoutMs, l.cpuMs, l.maxHostCalls,
    l.maxPendingPromises, l.maxLogBytes, l.maxOutboundBytes, l.maxRedirects, l.maxChildInvocations]

/-- `Budget.Engine_limits.make` (budget.ml:20). -/
def EngineLimits.make (l : EngineLimits) : Outcome Validation EngineLimits :=
  if l.fields.any fun f => decide (f < 0) then .error ⟨str "limits", str "negative limit"⟩ else .ok l

theorem EngineLimits.make_returns (l : EngineLimits) : l.make.Returns := by
  unfold EngineLimits.make
  split <;> simp

theorem EngineLimits.make_eq_ok {l l' : EngineLimits} : l.make = .ok l' ↔ l = l' ∧ ∀ f ∈ l.fields, 0 ≤ f := by
  unfold EngineLimits.make
  by_cases h : (l.fields.any fun f => decide (f < 0)) = true
  · rw [if_pos h]
    obtain ⟨f, hf, hneg⟩ := List.any_eq_true.1 h
    refine iff_of_false (by simp) fun hall => ?_
    exact absurd (hall.2 f hf) (by simpa using hneg)
  · rw [if_neg h, Outcome.ok.injEq]
    have hall : ∀ f ∈ l.fields, 0 ≤ f := by simpa using h
    exact ⟨fun heq => ⟨heq, hall⟩, And.left⟩

end MirageLambda
