import Mathlib.Algebra.Order.Group.Unbundled.Int
import Mathlib.Data.Int.GCD
import MirageLambda.Common.BundleRoundtrip
import MirageLambda.Common.CanonicalText
import MirageLambda.Lib.Run
import MirageLambda.Lib.Strtol
import MirageLambda.Qjs.HostQueue

/-!
# Limits of an engine (qjs/lib/qjs_engine.ml:44-52, qjs/c/qjs_stubs.c:98-195)

The limits cross from OCaml to C as text: `limits_blob` prints them in field order, `decode_limits` scans them back and
`mlqjs_create` makes a deadline and a CPU budget of two of them, which `mlqjs_interrupt` polls. The encoder goes through
`int32` while both sides have 64 bits to spare, and zero means "no check" on the C side:

* `limits_survive_iff`: the four limits that C reads arrive exactly when they are below `2^31`;
* `time_bound_iff`: a manifest bounds the time of its function unless both of its times arrive as zero.
-/

namespace MirageLambda
open OCaml

/-- `Budget.Engine_limits.default` (budget.ml:48). -/
def EngineLimits.default : EngineLimits :=
  { jsHeapBytes := 16 * 1024 * 1024, nativeOverheadBytes := 4 * 1024 * 1024, stackBytes := 256 * 1024,
    timeoutMs := 100, cpuMs := 50, maxHostCalls := 32, maxPendingPromises := 16, maxLogBytes := 32 * 1024,
    maxOutboundBytes := 256 * 1024, maxRedirects := 2, maxChildInvocations := 4 }

namespace Qjs

/-- One field: `Printf.sprintf "%ld|" (Int32.of_int n)`. -/
def limitText (n : Int) : Str := intToString (wrap 32 n) ++ str "|"

/-- `limits_blob` (qjs_engine.ml:46). -/
def limitsBlob (l : EngineLimits) : Str := l.fields.flatMap limitText

/-- The loop of `decode_limits` (qjs_stubs.c:166-172): at most `n` values more from `p`. -/
def scanLimits : Nat → Str → List Int
  | 0, _ => []
  | n + 1, p =>
    if p = [] then []
    else
      let scanned := LibC.strtol p
      -- a number that does not start here leaves a zero, and the loop ends
      if scanned.2 = p then [scanned.1]
      else scanned.1 :: scanLimits n (if scanned.2.head? = some (chr '|') then scanned.2.tail else scanned.2)

/-- What `decode_limits` stores through its four pointers. -/
structure Decoded where
  heap : UInt64
  stack : UInt64
  timeoutNs : UInt64
  cpuNs : UInt64
deriving DecidableEq, Repr

/-- `decode_limits` (qjs_stubs.c:159). -/
def decodeLimits (s : Str) : Decoded :=
  let vals := scanLimits 11 (cString s)
  { heap := UInt64.ofInt (vals.getD 0 0)
    stack := UInt64.ofInt (vals.getD 2 0)
    timeoutNs := UInt64.ofInt (vals.getD 3 0) * 1000000
    cpuNs := UInt64.ofInt (vals.getD 4 0) * 1000000 }

/-! ## What arrives -/

theorem limitText_ne_zero {n : Int} {c : UInt8} (h : c ∈ limitText n) : c ≠ 0 := by
  rintro rfl
  rcases List.mem_append.1 h with hnumber | hbar
  · exact absurd (CanonicalJson.numberByte_of_mem_intToString hnumber) (by decide)
  · exact absurd hbar (by decide)

theorem cString_limitsBlob (l : EngineLimits) : cString (limitsBlob l) = limitsBlob l := by
  apply cString_eq_self
  intro c hc
  obtain ⟨n, -, hn⟩ := List.mem_flatMap.1 hc
  exact limitText_ne_zero hn

/-- The loop reads back every field, in order. -/
theorem scanLimits_flatMap (n : Nat) (fields : List Int) (hn : fields.length ≤ n) :
    scanLimits n (fields.flatMap limitText) = fields.map (wrap 32) := by
  induction fields generalizing n with
  | nil => cases n <;> rfl
  | cons f fields ih =>
    obtain ⟨k, rfl⟩ : ∃ k, n = k + 1 := ⟨n - 1, by simp at hn; omega⟩
    have hfits : Fits 64 (wrap 32 f) := by
      have h32 := fits_wrap (w := 32) (by decide) f
      unfold Fits at h32 ⊢
      constructor <;> omega
    have htext : (f :: fields).flatMap limitText = intToString (wrap 32 f) ++ (chr '|' :: fields.flatMap limitText) := by
      rw [List.flatMap_cons, limitText, List.append_assoc]
      rfl
    have hbar : (chr '|' :: fields.flatMap limitText).takeWhile LibC.isDigit = [] := rfl
    have hread := LibC.strtol_intToString hfits hbar
    have hlonger : (chr '|' :: fields.flatMap limitText) ≠
        intToString (wrap 32 f) ++ (chr '|' :: fields.flatMap limitText) := by
      intro h
      exact intToString_ne_nil (wrap 32 f) (List.self_eq_append_left.1 h)
    rw [htext, scanLimits, hread, if_neg (by simp), if_neg hlonger]
    simp only [List.head?_cons, List.tail_cons, if_true, List.map_cons, ih k (by simpa using hn)]

/-- What C makes of the limits of an engine: the field order agrees, and only 32 bits of each field arrive. -/
theorem decodeLimits_limitsBlob (l : EngineLimits) :
    decodeLimits (limitsBlob l) =
      { heap := UInt64.ofInt (wrap 32 l.jsHeapBytes)
        stack := UInt64.ofInt (wrap 32 l.stackBytes)
        timeoutNs := UInt64.ofInt (wrap 32 l.timeoutMs) * 1000000
        cpuNs := UInt64.ofInt (wrap 32 l.cpuMs) * 1000000 } := by
  rw [decodeLimits, cString_limitsBlob, limitsBlob, scanLimits_flatMap 11 l.fields (le_refl 11)]
  rfl

/-- A time in milliseconds, as C multiplies it. -/
theorem toNat_nanos (n : Int) : ((UInt64.ofInt n * 1000000).toNat : Int) = n * 10 ^ 6 % 2 ^ 64 := by
  have hmul : UInt64.ofInt n * 1000000 = UInt64.ofInt (n * 10 ^ 6) := by
    rw [UInt64.ofInt_mul]
    rfl
  rw [hmul, toNat_ofInt]

/-- A million has six factors of two: times that agree in 64 bits of nanoseconds are the same or far apart. -/
theorem eq_zero_of_dvd_nanos {d : Int} (h : 2 ^ 64 ∣ d * 10 ^ 6) (hsmall : |d| < 2 ^ 58) : d = 0 := by
  have hodd : (2 ^ 58 : Int) ∣ 15625 * d := by
    apply Int.dvd_of_mul_dvd_mul_right (a := 64) (by decide)
    have heq : 15625 * d * 64 = d * 10 ^ 6 := by ring
    rw [heq]
    exact h
  have hcoprime : Int.gcd (2 ^ 58) 15625 = 1 := by decide
  exact Int.eq_zero_of_abs_lt_dvd (Int.dvd_of_dvd_mul_right_of_gcd_one hodd hcoprime) hsmall

theorem size_survives_iff {n : Int} (hnonneg : 0 ≤ n) (hfits : Fits 63 n) :
    ((UInt64.ofInt (wrap 32 n)).toNat : Int) = n ↔ n < 2 ^ 31 := by
  have hwrap := fits_wrap (w := 32) (by decide) n
  obtain ⟨k, hk⟩ := exists_eq_wrap_add 32 n
  unfold Fits at hfits hwrap
  rw [toNat_ofInt]
  generalize wrap 32 n = m at *
  omega

theorem time_survives_iff {n : Int} (hnonneg : 0 ≤ n) (hproduct : n * 10 ^ 6 < 2 ^ 64) :
    ((UInt64.ofInt (wrap 32 n) * 1000000).toNat : Int) = n * 10 ^ 6 ↔ n < 2 ^ 31 := by
  rw [toNat_nanos]
  constructor
  · intro h
    obtain ⟨hlo, hhi⟩ : -2 ^ 31 ≤ wrap 32 n ∧ wrap 32 n < 2 ^ 31 := fits_wrap (w := 32) (by decide) n
    have hdvd : (2 ^ 64 : Int) ∣ (wrap 32 n - n) * 10 ^ 6 := by
      rw [sub_mul, ← h]
      exact Int.dvd_self_sub_emod
    clear h
    generalize wrap 32 n = m at *
    have hsmall : |m - n| < 2 ^ 58 := by
      clear hdvd
      rw [abs_lt]
      omega
    rw [← sub_eq_zero.1 (eq_zero_of_dvd_nanos hdvd hsmall)]
    exact hhi
  · intro hlt
    have hsame : wrap 32 n = n := Fits.wrap_eq ⟨by omega, hlt⟩
    rw [hsame]
    exact Int.emod_eq_of_lt (by omega) hproduct

/-- What C uses of the limits is what OCaml was given. A product that needs more than 64 bits cannot be. -/
structure LimitsSurvive (l : EngineLimits) : Prop where
  heap : ((decodeLimits (limitsBlob l)).heap.toNat : Int) = l.jsHeapBytes
  stack : ((decodeLimits (limitsBlob l)).stack.toNat : Int) = l.stackBytes
  timeout : l.timeoutMs * 10 ^ 6 < 2 ^ 64 →
    ((decodeLimits (limitsBlob l)).timeoutNs.toNat : Int) = l.timeoutMs * 10 ^ 6
  cpu : l.cpuMs * 10 ^ 6 < 2 ^ 64 → ((decodeLimits (limitsBlob l)).cpuNs.toNat : Int) = l.cpuMs * 10 ^ 6

/-- **Limits reach the engine**, for any limits that `make` accepts, exactly when the sizes are below `2^31` and so are
the times whose nanoseconds are a 64-bit number. -/
theorem limits_survive_iff {l : EngineLimits} (hmake : l.make = .ok l) (hfits : ∀ f ∈ l.fields, Fits 63 f) :
    LimitsSurvive l ↔
      l.jsHeapBytes < 2 ^ 31 ∧ l.stackBytes < 2 ^ 31 ∧
      (l.timeoutMs < 2 ^ 31 ∨ 2 ^ 64 ≤ l.timeoutMs * 10 ^ 6) ∧ (l.cpuMs < 2 ^ 31 ∨ 2 ^ 64 ≤ l.cpuMs * 10 ^ 6) := by
  have hnonneg := (EngineLimits.make_eq_ok.1 hmake).2
  have hsize : ∀ n ∈ l.fields, (((UInt64.ofInt (wrap 32 n)).toNat : Int) = n ↔ n < 2 ^ 31) :=
    fun n hn => size_survives_iff (hnonneg n hn) (hfits n hn)
  have htime : ∀ n ∈ l.fields, ((n * 10 ^ 6 < 2 ^ 64 →
      ((UInt64.ofInt (wrap 32 n) * 1000000).toNat : Int) = n * 10 ^ 6) ↔ (n < 2 ^ 31 ∨ 2 ^ 64 ≤ n * 10 ^ 6)) := by
    intro n hn
    rcases lt_or_ge (n * 10 ^ 6) (2 ^ 64) with hlt | hge
    · rw [time_survives_iff (hnonneg n hn) hlt]
      omega
    · exact iff_of_true (fun h => absurd h (not_lt.2 hge)) (Or.inr hge)
  rw [← hsize l.jsHeapBytes (by simp [EngineLimits.fields]), ← hsize l.stackBytes (by simp [EngineLimits.fields]),
    ← htime l.timeoutMs (by simp [EngineLimits.fields]), ← htime l.cpuMs (by simp [EngineLimits.fields])]
  have hdecoded := decodeLimits_limitsBlob l
  constructor
  · rintro ⟨hheap, hstack, htimeout, hcpu⟩
    rw [hdecoded] at hheap hstack htimeout hcpu
    exact ⟨hheap, hstack, htimeout, hcpu⟩
  · rintro ⟨hheap, hstack, htimeout, hcpu⟩
    refine ⟨?_, ?_, ?_, ?_⟩ <;> rw [hdecoded]
    · exact hheap
    · exact hstack
    · exact htimeout
    · exact hcpu

/-- A heap of 2 GiB arrives as `2^64 - 2^31`: no limit at all. -/
theorem two_gigabytes_unlimited :
    let l := { EngineLimits.default with jsHeapBytes := 2 ^ 31 }
    l.make = .ok l ∧ (decodeLimits (limitsBlob l)).heap.toNat = 2 ^ 64 - 2 ^ 31 ∧ ¬ LimitsSurvive l := by
  intro l
  have hheap : (decodeLimits (limitsBlob l)).heap.toNat = 2 ^ 64 - 2 ^ 31 := by
    rw [decodeLimits_limitsBlob]
    decide
  refine ⟨by decide, hheap, fun h => ?_⟩
  have hsame := h.heap
  rw [hheap] at hsame
  exact absurd hsame (by decide)

theorem limits_survive_default : LimitsSurvive EngineLimits.default :=
  (limits_survive_iff (by decide) (by decide)).2 (by decide)

/-! ## Deadlines -/

/-- `mlqjs_interrupt_reason` (qjs_stubs.c:29). -/
inductive InterruptReason where
  | none | deadline | cpu | cancel
deriving DecidableEq, Repr

/-- The fields of `mlqjs_runtime` that the interrupt handler reads and writes (qjs_stubs.c:52-57). -/
structure Interrupts where
  deadlineNs : UInt64
  cpuBudgetNs : UInt64
  engineStartNs : UInt64
  cancelled : Bool
  interruptReason : InterruptReason
deriving DecidableEq, Repr

/-- These fields as `mlqjs_create` sets them (qjs_stubs.c:183-194), with the two clock readings it takes. -/
def createInterrupts (limits : Str) (first second : UInt64) : Interrupts :=
  let decoded := decodeLimits limits
  { deadlineNs := if decoded.timeoutNs ≠ 0 then first + decoded.timeoutNs else 0
    cpuBudgetNs := decoded.cpuNs
    engineStartNs := second
    cancelled := false
    interruptReason := .none }

/-- `mlqjs_interrupt` (qjs_stubs.c:98) at the clock reading `now`. -/
def mlqjsInterrupt (q : Interrupts) (now : UInt64) : Nat × Interrupts :=
  if q.cancelled then (1, { q with interruptReason := .cancel })
  else if q.deadlineNs ≠ 0 ∧ now ≥ q.deadlineNs then (1, { q with interruptReason := .deadline })
  else if q.cpuBudgetNs ≠ 0 then
    let used := now - q.engineStartNs
    if used ≥ q.cpuBudgetNs then (1, { q with interruptReason := .cpu }) else (0, q)
  else (0, q)

/-- The engine after the handler was called at each of these readings. -/
def polled (q : Interrupts) (readings : List UInt64) : Interrupts :=
  readings.foldl (fun q now => (mlqjsInterrupt q now).2) q

/-- The handler writes nothing but the reason. -/
theorem mlqjsInterrupt_frame (q : Interrupts) (now : UInt64) :
    ∃ r, (mlqjsInterrupt q now).2 = { q with interruptReason := r } := by
  unfold mlqjsInterrupt
  simp only []
  repeat' split
  all_goals exact ⟨_, rfl⟩

theorem polled_frame (q : Interrupts) (readings : List UInt64) : ∃ r, polled q readings = { q with interruptReason := r } := by
  refine Run.invariant (I := fun q' => ∃ r, q' = { q with interruptReason := r }) ?_ ⟨q.interruptReason, rfl⟩ readings
  rintro _ now ⟨r, rfl⟩
  exact mlqjsInterrupt_frame { q with interruptReason := r } now

theorem mlqjsInterrupt_eq_one {q : Interrupts} {now : UInt64} :
    (mlqjsInterrupt q now).1 = 1 ↔ q.cancelled = true ∨ (q.deadlineNs ≠ 0 ∧ q.deadlineNs ≤ now) ∨
      (q.cpuBudgetNs ≠ 0 ∧ q.cpuBudgetNs ≤ now - q.engineStartNs) := by
  unfold mlqjsInterrupt
  simp only []
  by_cases hcancelled : q.cancelled = true
  · simp [hcancelled]
  by_cases hdeadline : q.deadlineNs ≠ 0 ∧ q.deadlineNs ≤ now
  · simp [hcancelled, hdeadline]
  by_cases hcpu : q.cpuBudgetNs ≠ 0
  · by_cases hused : q.cpuBudgetNs ≤ now - q.engineStartNs
    · simp [hcancelled, hdeadline, hcpu, hused]
    · simp [hcancelled, hdeadline, hcpu, hused]
  · simp [hcancelled, hdeadline, hcpu]

/-- A new engine, polled as often as one likes and not cancelled, is interrupted at every reading more than `bound`
nanoseconds after its creation. The readings are those of a clock that has not wrapped. -/
def InterruptedAfter (l : EngineLimits) (bound : Nat) : Prop :=
  ∀ (first second now : UInt64) (readings : List UInt64), first ≤ second → second.toNat + bound < now.toNat →
    (mlqjsInterrupt (polled (createInterrupts (limitsBlob l) first second) readings) now).1 = 1

/-- There is a bound on the time of an engine, and a 64-bit clock can pass it. -/
def TimeBound (l : EngineLimits) : Prop := ∃ bound, bound + 1 < 2 ^ 64 ∧ InterruptedAfter l bound

/-- A time arrives as zero, which switches its check off, exactly when its lower 32 bits are zero. -/
theorem nanos_eq_zero_iff {n : Int} : UInt64.ofInt (wrap 32 n) * 1000000 = 0 ↔ 2 ^ 32 ∣ n := by
  have hzero : wrap 32 n = 0 ↔ 2 ^ 32 ∣ n := wrap_eq_zero_iff
  rw [← hzero]
  constructor
  · intro h
    obtain ⟨hlo, hhi⟩ : -2 ^ 31 ≤ wrap 32 n ∧ wrap 32 n < 2 ^ 31 := fits_wrap (w := 32) (by decide) n
    have hnanos := toNat_nanos (wrap 32 n)
    rw [h, UInt64.toNat_zero, Nat.cast_zero] at hnanos
    refine eq_zero_of_dvd_nanos (Int.dvd_of_emod_eq_zero hnanos.symm) ?_
    rw [abs_lt]
    constructor
    · exact lt_of_lt_of_le (by decide) hlo
    · exact lt_of_lt_of_le hhi (by decide)
  · intro h
    rw [h]
    rfl

/-- A multiple of a million is not one of the last two 64-bit numbers. -/
theorem nanos_add_one_lt (n : Int) : (UInt64.ofInt n * 1000000).toNat + 1 < 2 ^ 64 := by
  have hnanos := toNat_nanos n
  omega

/-- While the clock does not wrap, a deadline that is set has passed once the timeout has. -/
theorem interruptedAfter_timeout {l : EngineLimits} (h : (decodeLimits (limitsBlob l)).timeoutNs ≠ 0) :
    InterruptedAfter l (decodeLimits (limitsBlob l)).timeoutNs.toNat := by
  intro first second now readings hle hlate
  obtain ⟨r, hr⟩ := polled_frame (createInterrupts (limitsBlob l) first second) readings
  have hset : (createInterrupts (limitsBlob l) first second).deadlineNs =
      first + (decodeLimits (limitsBlob l)).timeoutNs := if_pos h
  rw [UInt64.le_iff_toNat_le] at hle
  have hnow := now.toNat_lt
  have hsum : (first + (decodeLimits (limitsBlob l)).timeoutNs).toNat =
      first.toNat + (decodeLimits (limitsBlob l)).timeoutNs.toNat := by
    rw [UInt64.toNat_add, Nat.mod_eq_of_lt (by omega)]
  have hpos : (decodeLimits (limitsBlob l)).timeoutNs.toNat ≠ 0 := fun h0 => h (UInt64.toNat_inj.1 h0)
  rw [hr, mlqjsInterrupt_eq_one]
  refine Or.inr (Or.inl ⟨?_, ?_⟩)
  · rw [hset, Ne, ← UInt64.toNat_inj, hsum]
    show ¬ _ = 0
    omega
  · rw [hset, UInt64.le_iff_toNat_le, hsum]
    omega

theorem interruptedAfter_cpu {l : EngineLimits} (h : (decodeLimits (limitsBlob l)).cpuNs ≠ 0) :
    InterruptedAfter l (decodeLimits (limitsBlob l)).cpuNs.toNat := by
  intro first second now readings hle hlate
  obtain ⟨r, hr⟩ := polled_frame (createInterrupts (limitsBlob l) first second) readings
  have hused : (now - second).toNat = now.toNat - second.toNat :=
    UInt64.toNat_sub_of_le now second (UInt64.le_iff_toNat_le.2 (by omega))
  rw [hr, mlqjsInterrupt_eq_one]
  refine Or.inr (Or.inr ⟨h, ?_⟩)
  show (decodeLimits (limitsBlob l)).cpuNs ≤ now - second
  rw [UInt64.le_iff_toNat_le, hused]
  omega

/-- With both checks off nothing interrupts the engine. -/
theorem not_timeBound {l : EngineLimits} (htimeout : (decodeLimits (limitsBlob l)).timeoutNs = 0)
    (hcpu : (decodeLimits (limitsBlob l)).cpuNs = 0) : ¬ TimeBound l := by
  rintro ⟨bound, hbound, hinterrupted⟩
  have hlate : (0 : UInt64).toNat + bound < (UInt64.ofNat (bound + 1)).toNat := by
    rw [UInt64.toNat_ofNat_of_lt' hbound]
    simp
  have hone := hinterrupted 0 0 _ [] (le_refl 0) hlate
  rw [polled, List.foldl_nil, mlqjsInterrupt_eq_one] at hone
  simp [createInterrupts, htimeout, hcpu] at hone

theorem timeoutNs_eq_zero_iff (l : EngineLimits) :
    (decodeLimits (limitsBlob l)).timeoutNs = 0 ↔ 2 ^ 32 ∣ l.timeoutMs := by
  rw [decodeLimits_limitsBlob]
  exact nanos_eq_zero_iff

theorem cpuNs_eq_zero_iff (l : EngineLimits) : (decodeLimits (limitsBlob l)).cpuNs = 0 ↔ 2 ^ 32 ∣ l.cpuMs := by
  rw [decodeLimits_limitsBlob]
  exact nanos_eq_zero_iff

/-- **Which functions have a time bound**: those of the accepted manifests in which `timeoutMs` or `cpuMs` is not a
multiple of `2^32`. -/
theorem time_bound_iff {json : Json} {m : Manifest} (_ : Manifest.parse json = .ok m) :
    TimeBound m.limits ↔ ¬ (2 ^ 32 ∣ m.limits.timeoutMs ∧ 2 ^ 32 ∣ m.limits.cpuMs) := by
  have hdecoded := decodeLimits_limitsBlob m.limits
  rw [← timeoutNs_eq_zero_iff, ← cpuNs_eq_zero_iff]
  constructor
  · rintro hbound ⟨htimeout, hcpu⟩
    exact not_timeBound htimeout hcpu hbound
  · intro h
    rcases not_and_or.1 h with htimeout | hcpu
    · refine ⟨_, ?_, interruptedAfter_timeout htimeout⟩
      rw [hdecoded]
      exact nanos_add_one_lt _
    · refine ⟨_, ?_, interruptedAfter_cpu hcpu⟩
      rw [hdecoded]
      exact nanos_add_one_lt _

/-- A manifest with this wall time and processor time. -/
def timesJson (ms : Int64) : CanonicalJson :=
  .object
    [(str "schemaVersion", .int 1), (str "name", .string (str "hello")),
     (str "entrypoint", .string (str "main.js")), (str "export", .string (str "default")),
     (str "runtime", .string (str "quickjs-2026-06-04")), (str "input", Bundle.sampleIo),
     (str "output", Bundle.sampleIo),
     (str "limits", .object
       [(str "jsHeapBytes", .int 8388608), (str "nativeOverheadBytes", .int 1048576),
        (str "stackBytes", .int 262144), (str "timeoutMs", .int ms), (str "cpuMs", .int ms),
        (str "maxHostCalls", .int 16), (str "maxPendingPromises", .int 8), (str "maxLogBytes", .int 4096),
        (str "maxOutboundBytes", .int 4096), (str "maxRedirects", .int 0), (str "maxChildInvocations", .int 0)]),
     (str "capabilities", .object [(str "logs", .bool true)]),
     (str "retry", .object [(str "mode", .string (str "never"))])]

def timesManifest (ms : Int) : Manifest :=
  { Bundle.sampleManifest with limits := { Bundle.sampleManifest.limits with timeoutMs := ms, cpuMs := ms } }

theorem not_timeBound_timesManifest {ms : Int} (h : 2 ^ 32 ∣ ms) : ¬ TimeBound (timesManifest ms).limits :=
  not_timeBound ((timeoutNs_eq_zero_iff _).2 h) ((cpuNs_eq_zero_iff _).2 h)

/-- Times of 0 are accepted, and so are times of `2^32`, which `mlqjs_create` reads as 0. In both cases there is no time
after which the engine is interrupted. -/
theorem untimed_not_bound :
    (Manifest.parse (CanonicalJson.jsonTree (timesJson 0)) = .ok (timesManifest 0) ∧
      ¬ TimeBound (timesManifest 0).limits) ∧
      Manifest.parse (CanonicalJson.jsonTree (timesJson (2 ^ 32))) = .ok (timesManifest (2 ^ 32)) ∧
        ¬ TimeBound (timesManifest (2 ^ 32)).limits :=
  ⟨⟨by decide +kernel, not_timeBound_timesManifest (dvd_zero _)⟩, by decide +kernel,
    not_timeBound_timesManifest (dvd_refl _)⟩

theorem time_bound_sample : TimeBound Bundle.sampleManifest.limits :=
  (time_bound_iff Bundle.sample_manifest_parses).2 (by decide)

end Qjs
end MirageLambda
