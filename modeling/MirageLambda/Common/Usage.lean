import MirageLambda.Lib.MachineInt
import MirageLambda.Lib.Run
import MirageLambda.Common.Budget

/-!
# Usage counters (common/budget.ml:61-134)

Five counters against the limits of an engine. Three are taken and released one unit at a time, two are bytes
that `add_…_bytes` adds. `take`, `release` and `add` are what the eight operations do to their counter; the
arithmetic is that of 63 bits.

A negative number of bytes is a release, and `add_bytes` grants it whatever the counter is: the counter falls
below zero, which the header of the file excludes (budget.ml:3-4) and the unit releases guard against
(`:94-96`). `Covered` says that no more is released than was added; `counters_in_range_iff` says that the
counters stay in range in exactly the runs whose operations are `Covered`.
-/

namespace MirageLambda
open OCaml

/-- `Usage.t` (budget.ml:62). -/
structure Usage where
  limits : EngineLimits
  hostCalls : Int
  pendingPromises : Int
  logBytes : Int
  outboundBytes : Int
  childInvocations : Int
deriving DecidableEq, Repr

namespace Usage

/-- `zero` (budget.ml:70). -/
def zero (limits : EngineLimits) : Usage :=
  { limits, hostCalls := 0, pendingPromises := 0, logBytes := 0, outboundBytes := 0, childInvocations := 0 }

/-- `if t.n >= limit then false else (t.n <- t.n + 1; true)`. -/
def take (limit current : Int) : Bool × Int :=
  if current ≥ limit then (false, current) else (true, wrap 63 (current + 1))

/-- `if t.n > 0 then t.n <- t.n - 1`. -/
def release (current : Int) : Int := if current > 0 then wrap 63 (current - 1) else current

/-- `add_bytes` (budget.ml:107): a negative `delta` is a release. -/
def addBytes (limit current delta : Int) : Bool :=
  if delta < 0 then true
  else if current > wrap 63 (limit - delta) then false
  else true

/-- `if add_bytes ~limit ~current delta then (t.n <- t.n + delta; true) else false`. -/
def add (limit current delta : Int) : Bool × Int :=
  if addBytes limit current delta then (true, wrap 63 (current + delta)) else (false, current)

/-- `take_host_call` (budget.ml:90). -/
def takeHostCall (t : Usage) : Bool × Usage :=
  let r := take t.limits.maxHostCalls t.hostCalls
  (r.1, { t with hostCalls := r.2 })

/-- `release_host_call` (budget.ml:95). -/
def releaseHostCall (t : Usage) : Usage := { t with hostCalls := release t.hostCalls }

/-- `take_pending_promise` (budget.ml:98). -/
def takePendingPromise (t : Usage) : Bool × Usage :=
  let r := take t.limits.maxPendingPromises t.pendingPromises
  (r.1, { t with pendingPromises := r.2 })

/-- `release_pending_promise` (budget.ml:102). -/
def releasePendingPromise (t : Usage) : Usage := { t with pendingPromises := release t.pendingPromises }

/-- `add_log_bytes` (budget.ml:116). -/
def addLogBytes (t : Usage) (delta : Int) : Bool × Usage :=
  let r := add t.limits.maxLogBytes t.logBytes delta
  (r.1, { t with logBytes := r.2 })

/-- `add_outbound_bytes` (budget.ml:122). -/
def addOutboundBytes (t : Usage) (delta : Int) : Bool × Usage :=
  let r := add t.limits.maxOutboundBytes t.outboundBytes delta
  (r.1, { t with outboundBytes := r.2 })

/-- `take_child_invocation` (budget.ml:128). -/
def takeChildInvocation (t : Usage) : Bool × Usage :=
  let r := take t.limits.maxChildInvocations t.childInvocations
  (r.1, { t with childInvocations := r.2 })

/-- `release_child_invocation` (budget.ml:132). -/
def releaseChildInvocation (t : Usage) : Usage := { t with childInvocations := release t.childInvocations }

/-! ## One counter -/

/-- The counter is between 0 and its limit. -/
def InRange (limit current : Int) : Prop := 0 ≤ current ∧ current ≤ limit

section
variable {limit current : Int}

theorem InRange.take (hlimit : Fits 63 limit) (h : InRange limit current) :
    InRange limit (take limit current).2 := by
  unfold Usage.take
  split
  · exact h
  · rename_i hlt
    have hexact : Fits 63 (current + 1) := by
      unfold Fits InRange at *
      omega
    simp only []
    rw [hexact.wrap_eq]
    unfold InRange at *
    omega

theorem InRange.release (hlimit : Fits 63 limit) (h : InRange limit current) :
    InRange limit (release current) := by
  unfold Usage.release
  split
  · rename_i hpos
    have hexact : Fits 63 (current - 1) := by
      unfold Fits InRange at *
      omega
    rw [hexact.wrap_eq]
    unfold InRange at *
    omega
  · exact h

/-- A release of more than the counter holds. -/
theorem add_of_neg (hlimit : Fits 63 limit) (h : InRange limit current) {delta : IntN 63} (hneg : delta.1 < 0) :
    add limit current delta.1 = (true, current + delta.1) := by
  have hdelta := delta.2
  have hexact : Fits 63 (current + delta.1) := by
    unfold Fits InRange at *
    omega
  rw [add, addBytes, if_pos hneg, if_pos rfl, hexact.wrap_eq]

theorem InRange.add_of_nonneg (hlimit : Fits 63 limit) (h : InRange limit current) {delta : IntN 63}
    (hnonneg : 0 ≤ delta.1) : InRange limit (add limit current delta.1).2 := by
  have hdelta := delta.2
  have hdiff : Fits 63 (limit - delta.1) := by
    unfold Fits InRange at *
    omega
  rw [add, addBytes, if_neg (not_lt.2 hnonneg), hdiff.wrap_eq]
  by_cases hover : current > limit - delta.1
  · rw [if_pos hover]
    exact h
  · rw [if_neg hover, if_pos rfl]
    have hexact : Fits 63 (current + delta.1) := by
      unfold Fits InRange at *
      omega
    simp only []
    rw [hexact.wrap_eq]
    unfold InRange at *
    omega

/-- **Adding bytes keeps the counter in range exactly when it does not release more than there is.** -/
theorem inRange_add_iff (hlimit : Fits 63 limit) (h : InRange limit current) (delta : IntN 63) :
    InRange limit (add limit current delta.1).2 ↔ 0 ≤ current + delta.1 := by
  by_cases hneg : delta.1 < 0
  · rw [add_of_neg hlimit h hneg]
    unfold InRange at *
    simp only []
    omega
  · refine iff_of_true (h.add_of_nonneg hlimit (not_lt.1 hneg)) ?_
    have := h.1
    omega

theorem take_refused (h : (take limit current).1 = false) : (take limit current).2 = current := by
  unfold take at h ⊢
  split at h
  · rename_i hfull
    rw [if_pos hfull]
  · cases h

theorem add_refused {delta : Int} (h : (add limit current delta).1 = false) :
    (add limit current delta).2 = current := by
  unfold add at h ⊢
  split at h
  · cases h
  · rename_i hno
    rw [if_neg hno]

end

/-! ## Runs -/

/-- The operations, with arguments of type `int`. -/
inductive Call where
  | takeHostCall | releaseHostCall | takePendingPromise | releasePendingPromise
  | takeChildInvocation | releaseChildInvocation
  | addLogBytes (delta : IntN 63)
  | addOutboundBytes (delta : IntN 63)

/-- The answer, where there is one, and the counters after it. -/
def call (t : Usage) : Call → Option Bool × Usage
  | .takeHostCall => (some t.takeHostCall.1, t.takeHostCall.2)
  | .releaseHostCall => (none, t.releaseHostCall)
  | .takePendingPromise => (some t.takePendingPromise.1, t.takePendingPromise.2)
  | .releasePendingPromise => (none, t.releasePendingPromise)
  | .takeChildInvocation => (some t.takeChildInvocation.1, t.takeChildInvocation.2)
  | .releaseChildInvocation => (none, t.releaseChildInvocation)
  | .addLogBytes delta => (some (t.addLogBytes delta.1).1, (t.addLogBytes delta.1).2)
  | .addOutboundBytes delta => (some (t.addOutboundBytes delta.1).1, (t.addOutboundBytes delta.1).2)

def step (t : Usage) (c : Call) : Usage := (t.call c).2

/-- Every counter is in range. -/
structure WithinLimits (t : Usage) : Prop where
  hostCalls : InRange t.limits.maxHostCalls t.hostCalls
  pendingPromises : InRange t.limits.maxPendingPromises t.pendingPromises
  logBytes : InRange t.limits.maxLogBytes t.logBytes
  outboundBytes : InRange t.limits.maxOutboundBytes t.outboundBytes
  childInvocations : InRange t.limits.maxChildInvocations t.childInvocations

/-- No more bytes are released than the counter holds. -/
def Covered (t : Usage) : Call → Prop
  | .addLogBytes delta => 0 ≤ t.logBytes + delta.1
  | .addOutboundBytes delta => 0 ≤ t.outboundBytes + delta.1
  | _ => True

@[simp] theorem limits_step (t : Usage) (c : Call) : (t.step c).limits = t.limits := by
  cases c <;> rfl

/-- An operation that answers `false` changes nothing. -/
theorem call_refused {t : Usage} {c : Call} (h : (t.call c).1 = some false) : t.step c = t := by
  cases c with
  | takeHostCall =>
    show { t with hostCalls := (take t.limits.maxHostCalls t.hostCalls).2 } = t
    rw [take_refused (Option.some.inj h)]
  | takePendingPromise =>
    show { t with pendingPromises := (take t.limits.maxPendingPromises t.pendingPromises).2 } = t
    rw [take_refused (Option.some.inj h)]
  | takeChildInvocation =>
    show { t with childInvocations := (take t.limits.maxChildInvocations t.childInvocations).2 } = t
    rw [take_refused (Option.some.inj h)]
  | addLogBytes delta =>
    show { t with logBytes := (add t.limits.maxLogBytes t.logBytes delta.1).2 } = t
    rw [add_refused (Option.some.inj h)]
  | addOutboundBytes delta =>
    show { t with outboundBytes := (add t.limits.maxOutboundBytes t.outboundBytes delta.1).2 } = t
    rw [add_refused (Option.some.inj h)]
  | _ => cases h

/-- The limits are 63-bit numbers. -/
def LimitsFit (l : EngineLimits) : Prop := ∀ f ∈ l.fields, Fits 63 f

/-- **What one operation does to the ranges**: it keeps them exactly when it is `Covered`. -/
theorem withinLimits_step_iff {t : Usage} (hfits : LimitsFit t.limits) (h : t.WithinLimits) (c : Call) :
    (t.step c).WithinLimits ↔ t.Covered c := by
  have hfit : ∀ f ∈ t.limits.fields, Fits 63 f := hfits
  cases c with
  | takeHostCall => exact iff_of_true { h with hostCalls := h.hostCalls.take (hfit _ (by simp [EngineLimits.fields])) } trivial
  | releaseHostCall =>
    exact iff_of_true { h with hostCalls := h.hostCalls.release (hfit _ (by simp [EngineLimits.fields])) } trivial
  | takePendingPromise =>
    exact iff_of_true { h with pendingPromises := h.pendingPromises.take (hfit _ (by simp [EngineLimits.fields])) } trivial
  | releasePendingPromise =>
    exact iff_of_true { h with pendingPromises := h.pendingPromises.release (hfit _ (by simp [EngineLimits.fields])) }
      trivial
  | takeChildInvocation =>
    exact iff_of_true { h with childInvocations := h.childInvocations.take (hfit _ (by simp [EngineLimits.fields])) }
      trivial
  | releaseChildInvocation =>
    exact iff_of_true
      { h with childInvocations := h.childInvocations.release (hfit _ (by simp [EngineLimits.fields])) } trivial
  | addLogBytes delta =>
    have hiff := inRange_add_iff (hfit _ (by simp [EngineLimits.fields])) h.logBytes delta
    exact ⟨fun hstep => hiff.1 hstep.logBytes, fun hcovered => { h with logBytes := hiff.2 hcovered }⟩
  | addOutboundBytes delta =>
    have hiff := inRange_add_iff (hfit _ (by simp [EngineLimits.fields])) h.outboundBytes delta
    exact ⟨fun hstep => hiff.1 hstep.outboundBytes, fun hcovered => { h with outboundBytes := hiff.2 hcovered }⟩

theorem withinLimits_zero {l : EngineLimits} (hnonneg : ∀ f ∈ l.fields, 0 ≤ f) : (zero l).WithinLimits where
  hostCalls := ⟨le_refl 0, hnonneg _ (by simp [EngineLimits.fields, zero])⟩
  pendingPromises := ⟨le_refl 0, hnonneg _ (by simp [EngineLimits.fields, zero])⟩
  logBytes := ⟨le_refl 0, hnonneg _ (by simp [EngineLimits.fields, zero])⟩
  outboundBytes := ⟨le_refl 0, hnonneg _ (by simp [EngineLimits.fields, zero])⟩
  childInvocations := ⟨le_refl 0, hnonneg _ (by simp [EngineLimits.fields, zero])⟩

/-- **When budget counters stay in range**: in every run that releases no more bytes than it added, and in no other.
An operation that answers `false` changes nothing in any run. -/
theorem counters_in_range_iff {l : EngineLimits} (hmake : l.make = .ok l) (hfits : LimitsFit l) (calls : List Call) :
    ((∀ pre, pre <+: calls → (pre.foldl step (zero l)).WithinLimits) ∧
      ∀ pre c, pre ++ [c] <+: calls → ((pre.foldl step (zero l)).call c).1 = some false →
        (pre.foldl step (zero l)).step c = pre.foldl step (zero l)) ↔
    Run.Along step Covered (zero l) calls := by
  have hrange : (∀ pre, pre <+: calls → (pre.foldl step (zero l)).WithinLimits) ↔
      Run.Along step Covered (zero l) calls := by
    refine Run.invariant_iff_along (J := fun t => t.limits = l) (fun t c ht => ?_) (fun t c ht h => ?_) rfl ?_ calls
    · rw [limits_step, ht]
    · exact withinLimits_step_iff (ht ▸ hfits) h c
    · exact withinLimits_zero (EngineLimits.make_eq_ok.1 hmake).2
  exact ⟨fun h => hrange.1 h.1, fun h => ⟨hrange.2 h, fun _ _ _ hno => call_refused hno⟩⟩

/-- Limits of one hundred bytes and two calls of each kind. -/
def smallLimits : EngineLimits :=
  { jsHeapBytes := 1024, nativeOverheadBytes := 1024, stackBytes := 1024, timeoutMs := 100, cpuMs := 100
    maxHostCalls := 2, maxPendingPromises := 2, maxLogBytes := 100, maxOutboundBytes := 100, maxRedirects := 1
    maxChildInvocations := 2 }

/-- Sixty bytes are added and released again. -/
theorem counters_in_range_small :
    ([Call.addLogBytes ⟨60, by decide⟩, .addLogBytes ⟨-60, by decide⟩, .takeHostCall].foldl step
      (zero smallLimits)).WithinLimits := by
  have hiff := counters_in_range_iff (l := smallLimits) (by decide) (by unfold LimitsFit; decide)
    [Call.addLogBytes ⟨60, by decide⟩, .addLogBytes ⟨-60, by decide⟩, .takeHostCall]
  refine (hiff.2 ⟨?_, ?_, trivial, trivial⟩).1 _ (List.prefix_refl _)
  · unfold Covered
    decide
  · unfold Covered
    decide

/-- One byte is released that was never added. -/
theorem log_bytes_below_zero :
    ¬ ∀ pre, pre <+: [Call.addLogBytes ⟨-1, by decide⟩] → (pre.foldl step (zero smallLimits)).WithinLimits := by
  intro h
  have hlow := (h [Call.addLogBytes ⟨-1, by decide⟩] (List.prefix_refl _)).logBytes.1
  exact absurd hlow (by decide)

end Usage
end MirageLambda
