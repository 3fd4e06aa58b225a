import MirageLambda.Lib.Outcome

/-!
# The host implementations (worker/host_log.ml, host_clock.ml, host_crypto.ml)

What the operating system answers while one host request is served is a `System`: the time, the buffer
`Bytes.create` hands out (its old contents, or no memory at all), and how opening and reading
`/dev/urandom` end.
-/

namespace MirageLambda
open OCaml

/-- The operating system, as far as one host request can see it. -/
structure System where
  nowMs : Int64
  memory : Option (Nat → UInt8)
  openfile : Except Exn Unit
  read : Except Exn Str

/-! ## The log -/

/-- `Host_log.level`. -/
inductive LogLevel where
  | debug | info | warn | error
deriving DecidableEq, Repr

/-- `Host_log.event` (host_log.ml:7). -/
structure LogEvent where
  level : LogLevel
  message : Str
  fields : List (Str × Str)
deriving DecidableEq, Repr

/-- `Host_log.t` (host_log.ml:13), the latest event first. -/
structure HostLog where
  events : List LogEvent
  bytes : Int
  maxBytes : Int
  truncated : Bool
deriving DecidableEq, Repr

/-- `Host_log.make` (host_log.ml:20). -/
def HostLog.make (maxBytes : Int) : HostLog := { events := [], bytes := 0, maxBytes, truncated := false }

/-- `Host_log.append` (host_log.ml:24). -/
def HostLog.append (t : HostLog) (level : LogLevel) (message : Str) (fields : List (Str × Str)) : HostLog :=
  let event : LogEvent := { level, message, fields }
  let eventBytes : Nat := message.length + fields.foldl (fun a kv => a + kv.1.length + kv.2.length + 4) 0
  if t.bytes + eventBytes > t.maxBytes then { t with truncated := true }
  else { t with events := event :: t.events, bytes := t.bytes + eventBytes }

/-! ## The clock -/

/-- `Host_clock.t` (host_clock.ml:5). -/
structure HostClock where
  scripted : Option (List Int64)
deriving DecidableEq, Repr

/-- `Host_clock.make_real` (host_clock.ml:9). -/
def HostClock.makeReal : HostClock := ⟨none⟩

/-- `Host_clock.monotonic_ms` (host_clock.ml:12). -/
def HostClock.monotonicMs (t : HostClock) (sys : System) : Int64 × HostClock :=
  match t.scripted with
  | some (v :: rest) => (v, ⟨some rest⟩)
  | some [] => (0, t)
  | none => (sys.nowMs, t)

/-! ## Randomness -/

/-- `Host_crypto.t` (host_crypto.ml:5). A `Random.State.t` is the bytes it will draw. -/
structure HostCrypto where
  deterministic : Bool
  state : Option (Nat → UInt8)

/-- `Host_crypto.make_real` (host_crypto.ml:10). -/
def HostCrypto.makeReal : HostCrypto := { deterministic := false, state := none }

/-- `Bytes.create n`: a buffer with whatever the memory holds. -/
def bytesCreate {ε : Type} (sys : System) (n : Int) : Outcome ε Str :=
  if n < 0 ∨ n > maxStringLength then .raised (.invalidArgument (str "Bytes.create"))
  else match sys.memory with
    | none => .raised (.ext "Out_of_memory" [])
    | some old => .ok ((List.range n.toNat).map old)

/-- The buffer after `Unix.read fd buf 0 n`: one call delivers at most 65536 bytes. -/
def readInto (buf delivered : Str) : Str :=
  let got := (delivered.take buf.length).take 65536
  got ++ buf.drop got.length

/-- `Host_crypto.random_bytes` (host_crypto.ml:15). -/
def HostCrypto.randomBytes {ε : Type} (t : HostCrypto) (sys : System) (n : Int) : Outcome ε Str × HostCrypto :=
  if n ≤ 0 then (.ok [], t)
  else if t.deterministic then
    match t.state with
    | some st => match bytesCreate (ε := ε) sys n with
      | .ok _ => (.ok ((List.range n.toNat).map st), { t with state := some fun k => st (k + n.toNat) })
      | failed => (failed, t)
    | none => (.ok [], t)
  else
    (do
      let buf ← bytesCreate sys n
      match sys.openfile with
      | .error e => .raised e
      | .ok () => match sys.read with
        | .error e => .raised e
        | .ok delivered => .ok (readInto buf delivered), t)

/-- The system does not hand out `n` random bytes. -/
def System.RandomFails (sys : System) (n : Int) : Prop :=
  0 < n ∧ (n > maxStringLength ∨ sys.memory = none ∨ (∃ e, sys.openfile = .error e) ∨ ∃ e, sys.read = .error e)

theorem bytesCreate_raises {ε : Type} {sys : System} {n : Int} (hn : 0 < n) :
    (bytesCreate (ε := ε) sys n).Raises ↔ n > maxStringLength ∨ sys.memory = none := by
  unfold bytesCreate
  by_cases hbig : n > maxStringLength
  · rw [if_pos (Or.inr hbig)]
    simp [Outcome.Raises, hbig]
  · rw [if_neg (by omega)]
    cases hmem : sys.memory <;> simp [Outcome.Raises, hbig]

/-- **When the real source of randomness raises.** -/
theorem randomBytes_raises {ε : Type} {t : HostCrypto} (hreal : t.deterministic = false) {sys : System} {n : Int} :
    (t.randomBytes (ε := ε) sys n).1.Raises ↔ sys.RandomFails n := by
  unfold HostCrypto.randomBytes System.RandomFails
  by_cases hn : n ≤ 0
  · rw [if_pos hn]
    simp only [Outcome.raises_ok, false_iff]
    omega
  have hpos : 0 < n := by omega
  rw [if_neg hn, hreal]
  simp only [Bool.false_eq_true, if_false, hpos, true_and]
  rw [Outcome.raises_bind, bytesCreate_raises hpos]
  constructor
  · rintro ((hbig | hmem) | ⟨buf, _, h⟩)
    · exact Or.inl hbig
    · exact Or.inr (Or.inl hmem)
    · cases hopen : sys.openfile with
      | error e => exact Or.inr (Or.inr (Or.inl ⟨e, rfl⟩))
      | ok u => cases hread : sys.read with
        | error e => exact Or.inr (Or.inr (Or.inr ⟨e, rfl⟩))
        | ok delivered => simp [hopen, hread] at h
  · intro h
    by_cases hcreate : n > maxStringLength ∨ sys.memory = none
    · exact Or.inl hcreate
    · right
      have hret : ∃ buf, bytesCreate (ε := ε) sys n = .ok buf := by
        rw [not_or] at hcreate
        obtain ⟨old, hold⟩ := Option.ne_none_iff_exists'.1 hcreate.2
        refine ⟨(List.range n.toNat).map old, ?_⟩
        rw [bytesCreate, if_neg (by omega), hold]
      obtain ⟨buf, hbuf⟩ := hret
      refine ⟨buf, hbuf, ?_⟩
      rcases h with h | h | ⟨e, h⟩ | ⟨e, h⟩
      · exact absurd (Or.inl h) hcreate
      · exact absurd (Or.inr h) hcreate
      · simp [h, Outcome.Raises]
      · cases hopen : sys.openfile with
        | error e' => simp [Outcome.Raises]
        | ok u => simp [h, Outcome.Raises]

/-- No `n` random bytes come from this source: the buffer cannot be made, or `/dev/urandom` fails where it is read. A
deterministic source without a state makes no buffer. -/
structure HostCrypto.Refuses (t : HostCrypto) (sys : System) (n : Int) : Prop where
  asked : 0 < n
  draws : t.deterministic = true → t.state ≠ none
  fails : n > maxStringLength ∨ sys.memory = none ∨
    (t.deterministic = false ∧ ((∃ e, sys.openfile = .error e) ∨ ∃ e, sys.read = .error e))

theorem refuses_real {t : HostCrypto} (hreal : t.deterministic = false) {sys : System} {n : Int} :
    t.Refuses sys n ↔ sys.RandomFails n := by
  constructor
  · rintro ⟨hn, -, h⟩
    exact ⟨hn, by simpa only [hreal, true_and] using h⟩
  · rintro ⟨hn, h⟩
    refine ⟨hn, fun hdet => ?_, by simpa only [hreal, true_and] using h⟩
    rw [hreal] at hdet
    cases hdet

/-- **When a source of randomness raises.** -/
theorem randomBytes_raises_iff {ε : Type} {t : HostCrypto} {sys : System} {n : Int} :
    (t.randomBytes (ε := ε) sys n).1.Raises ↔ t.Refuses sys n := by
  cases hdet : t.deterministic with
  | false => rw [randomBytes_raises hdet, refuses_real hdet]
  | true =>
    unfold HostCrypto.randomBytes
    by_cases hn : n ≤ 0
    · rw [if_pos hn]
      exact iff_of_false (Outcome.raises_ok _) fun h => absurd h.asked (not_lt.2 hn)
    rw [if_neg hn, if_pos hdet]
    have hpos : 0 < n := not_le.1 hn
    cases hstate : t.state with
    | none => exact iff_of_false (Outcome.raises_ok _) fun h => h.draws hdet hstate
    | some st =>
      have hcreate : (bytesCreate (ε := ε) sys n).Raises ↔ n > maxStringLength ∨ sys.memory = none :=
        bytesCreate_raises hpos
      have hrefuses : t.Refuses sys n ↔ n > maxStringLength ∨ sys.memory = none := by
        constructor
        · rintro ⟨-, -, hbig | hmem | ⟨hreal, -⟩⟩
          · exact Or.inl hbig
          · exact Or.inr hmem
          · rw [hdet] at hreal
            cases hreal
        · rintro (hbig | hmem)
          · exact ⟨hpos, fun _ => by simp [hstate], Or.inl hbig⟩
          · exact ⟨hpos, fun _ => by simp [hstate], Or.inr (Or.inl hmem)⟩
      rw [hrefuses, ← hcreate]
      simp only []
      cases bytesCreate (ε := ε) sys n with
      | ok buf => exact iff_of_false (Outcome.raises_ok _) (Outcome.raises_ok _)
      | error e => rfl
      | raised x => rfl

theorem bytesCreate_ne_error {ε : Type} (sys : System) (n : Int) (e : ε) : bytesCreate sys n ≠ .error e := by
  unfold bytesCreate
  split
  · simp
  · cases sys.memory <;> simp

/-- Random bytes are delivered or an exception is raised; there is no `Error`. -/
theorem randomBytes_ne_error {ε : Type} (t : HostCrypto) (sys : System) (n : Int) (e : ε) :
    (t.randomBytes sys n).1 ≠ .error e := by
  have hcreate := bytesCreate_ne_error sys n e
  unfold HostCrypto.randomBytes
  split
  · simp
  split
  · cases t.state with
    | none => simp
    | some st =>
      cases hbuf : bytesCreate (ε := ε) sys n with
      | ok buf => simp
      | error e' => simpa [hbuf] using hcreate
      | raised x => simp
  · cases hbuf : bytesCreate (ε := ε) sys n with
    | ok buf =>
      cases sys.openfile with
      | error x => simp
      | ok u => cases sys.read <;> simp
    | error e' => simpa [hbuf] using hcreate
    | raised x => simp

/-- The real source stays the real source. -/
theorem randomBytes_real {ε : Type} {t : HostCrypto} (hreal : t.deterministic = false) (sys : System) (n : Int) :
    (t.randomBytes (ε := ε) sys n).2 = t := by
  unfold HostCrypto.randomBytes
  rw [hreal]
  split
  · rfl
  · rfl

end MirageLambda
