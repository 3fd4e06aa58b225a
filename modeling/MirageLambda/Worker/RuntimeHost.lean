import MirageLambda.Qjs.Serving
import MirageLambda.Worker.CapabilityBroker

/-!
# The dispatch loop (worker/runtime_host.ml)

`drive` pumps the engine, answers the host requests that wait, pumps again, and asks whether the handler
is done, for at most `max_turns` turns. `serve` is its `List.iter`. What the operating system answers to
request `k` of turn `t` is `sys t k`.

The broker's exceptions leave `drive`. `waiting` are the payloads that are in the queue when a turn drains
it, and `drive_cases` says that an exception leaves exactly when some turn before the handler is done
finds an unanswerable one among them.
-/

namespace MirageLambda
open OCaml Qjs

/-- `completion` (runtime_host.ml:7). -/
inductive Completion where
  | fulfilled (json : Str)
  | rejected (msg : Str)
  | failed (e : Error)
  | timeout (e : Error)
deriving DecidableEq, Repr

/-- The JSON text for a failed operation (runtime_host.ml:31). -/
def errorJson (msg : Str) : Str := str "\x7b\"error\":" ++ camlString msg ++ str "\x7d"

/-- What `drive` does with the answer to a request (runtime_host.ml:25-31). -/
def deliver (v : Int) (id : UInt64) (answer : Outcome Str Str) (calls : List HostCall) : Prog State Error Unit :=
  match answer with
  | .ok json => Engine.resolve v id json calls
  | .error msg => Engine.resolve v id (errorJson msg) calls
  | .raised x => Prog.lift (.raised x)

/-- The `List.iter` of `drive` (runtime_host.ml:23), from request `k` on. -/
def serve (Y : Yojson) (sys : Nat → System) (turn : Turn) (v : Int) :
    Nat → Implementations → List HostRequest → Prog State Error Implementations
  | _, impls, [] => pure impls
  | k, impls, req :: rest => do
    let answered := dispatch Y impls Policy.empty (sys k) req.payload.bytes
    deliver v req.id answered.1 (turn.reply k)
    serve Y sys turn v (k + 1) answered.2 rest

/-- The test of the completion check (runtime_host.ml:37). -/
def isDone : Except QjsError Int → Bool
  | .ok 1 => true
  | _ => false

/-- The result of a handler that is done (runtime_host.ml:38-41). -/
def readResult (v : Int) (turn : Turn) : Prog State Error Completion := do
  let result ← Engine.evalString v (str "JSON.stringify(globalThis.__result || null)") turn
  match result with
  | .ok json => pure (.fulfilled json)
  | .error (.engine s) => pure (.rejected s)

/-- `drive` (runtime_host.ml:15), at turn `t`. -/
def drive (Y : Yojson) (sys : Nat → Nat → System) (js : Script) (v : Int) :
    Nat → Nat → Implementations → Prog State Error Completion
  | 0, _, _ => pure (.timeout (Error.make .invocationTimeout .invocationTimeout
      (str "drive: max_turns exceeded (possible infinite loop)")))
  | maxTurns + 1, t, impls => do
    let turn := js.turn t
    Engine.pump v turn.pump
    let requests ← Engine.takeHostRequests v
    let impls ← serve Y (sys t) turn v 0 impls requests
    Engine.pump v turn.settle
    let done ← Engine.evalInt v (str "__done ? 1 : 0") turn
    if isDone done then readResult v turn else drive Y sys js v maxTurns (t + 1) impls

theorem isDone_iff {r : Except QjsError Int} : isDone r = true ↔ r = .ok 1 := by
  unfold isDone
  split
  · simp
  · rename_i h
    exact iff_of_false Bool.false_ne_true h

/-! ## What waits in the queue -/

/-- The calls made while `n` replies of a turn are delivered, from reply `k` on. -/
def replies (turn : Turn) : Nat → Nat → List HostCall
  | _, 0 => []
  | k, n + 1 => turn.reply k ++ replies turn (k + 1) n

/-- The payloads that turn `t` finds in the queue, when `first` are the calls made before the loop. -/
def waiting (js : Script) (first : List HostCall) : Nat → List Str
  | 0 => enqueue [] (first ++ (js.turn 0).pump)
  | t + 1 =>
    let turn := js.turn t
    enqueue [] (replies turn 0 (waiting js first t).length ++ turn.settle ++ turn.check ++ (js.turn (t + 1)).pump)

/-- The handler is done at the end of this turn. -/
def Finished (turn : Turn) : Prop := turn.evalInt (str "__done ? 1 : 0") = .ok 1

instance (turn : Turn) : Decidable (Finished turn) :=
  decidable_of_iff (isDone (turn.evalInt (str "__done ? 1 : 0") |>.mapError fun _ => .engine []) = true) (by
    unfold Finished
    rw [isDone_iff]
    cases turn.evalInt (str "__done ? 1 : 0") <;> simp [Except.mapError])

/-- What `drive` returns at the end of a turn that finds the handler done. -/
def Qjs.Turn.completion (turn : Turn) : Completion :=
  match stringResult (turn.evalString (str "JSON.stringify(globalThis.__result || null)")) with
  | .ok json => .fulfilled json
  | .error (.engine s) => .rejected s

/-- What `drive` returns when nothing raises: the result at the first of `n` turns, from `t` on, that finds the
handler done. -/
def completed (js : Script) : Nat → Nat → Completion
  | 0, _ => .timeout (Error.make .invocationTimeout .invocationTimeout
      (str "drive: max_turns exceeded (possible infinite loop)"))
  | n + 1, t => if Finished (js.turn t) then (js.turn t).completion else completed js n (t + 1)

/-- One of these payloads, of requests `k` and on, cannot be answered. -/
def StuckFrom (Y : Yojson) (sys : Nat → System) : Nat → List Str → Prop
  | _, [] => False
  | k, p :: ps => Unanswerable Y (sys k) (received p) ∨ StuckFrom Y sys (k + 1) ps

/-- One of the payloads of a turn cannot be answered. -/
def Stuck (Y : Yojson) (sys : Nat → System) (payloads : List Str) : Prop := StuckFrom Y sys 0 payloads

/-- Some turn of `n`, from `t` on, reached before the handler is done, finds a payload it cannot
answer. -/
def Stalls (Y : Yojson) (sys : Nat → Nat → System) (js : Script) (first : List HostCall) (t n : Nat) : Prop :=
  ∃ k < n, (∀ j < k, ¬ Finished (js.turn (t + j))) ∧ Stuck Y (sys (t + k)) (waiting js first (t + k))

theorem stalls_succ {Y : Yojson} {sys : Nat → Nat → System} {js : Script} {first : List HostCall} {t n : Nat} :
    Stalls Y sys js first t (n + 1) ↔
      Stuck Y (sys t) (waiting js first t) ∨ (¬ Finished (js.turn t) ∧ Stalls Y sys js first (t + 1) n) := by
  constructor
  · rintro ⟨k, hk, hbefore, hstuck⟩
    cases k with
    | zero => exact Or.inl hstuck
    | succ k =>
      refine Or.inr ⟨hbefore 0 (Nat.succ_pos k), k, by omega, fun j hj => ?_, ?_⟩
      · have := hbefore (j + 1) (by omega)
        rwa [Nat.add_right_comm, Nat.add_assoc]
      · rwa [Nat.add_right_comm, Nat.add_assoc]
  · rintro (hstuck | ⟨hfin, k, hk, hbefore, hstuck⟩)
    · exact ⟨0, Nat.succ_pos n, fun j hj => absurd hj (Nat.not_lt_zero j), hstuck⟩
    · refine ⟨k + 1, by omega, fun j hj => ?_, ?_⟩
      · cases j with
        | zero => exact hfin
        | succ j =>
          have := hbefore j (by omega)
          rwa [Nat.add_right_comm, Nat.add_assoc] at this
      · rwa [Nat.add_right_comm, Nat.add_assoc] at hstuck

/-! ## The loops -/

section
variable {Y : Yojson} {t : Table Runtime} {v : Int} {i : Fin tableCap} {ms : List (Str × Str)} {st : State}

/-- An answer is delivered; an exception is not. -/
theorem Qjs.Serving.deliver {ps : List Str} (h : Serving t v i ms ps st) (id : UInt64) {answer : Outcome Str Str}
    (hreturns : answer.Returns) (calls : List HostCall) :
    ∃ st', MirageLambda.deliver v id answer calls st = (.ok (), st') ∧ Serving t v i ms (enqueue ps calls) st' := by
  cases answer with
  | ok json => exact h.resolve id json calls
  | error msg => exact h.resolve id (errorJson msg) calls
  | raised x => exact absurd rfl (hreturns x)

theorem Qjs.Serving.readResult {ps : List Str} (h : Serving t v i ms ps st) (turn : Turn) :
    ∃ st' ps', MirageLambda.readResult v turn st = (.ok turn.completion, st') ∧ Serving t v i ms ps' st' := by
  obtain ⟨st', hresult, h'⟩ := h.evalString (ε := Error) (str "JSON.stringify(globalThis.__result || null)") turn
  rw [MirageLambda.readResult, Prog.bind_of_ok hresult, Turn.completion]
  cases hr : stringResult (turn.evalString (str "JSON.stringify(globalThis.__result || null)")) with
  | ok json => exact ⟨st', _, rfl, h'⟩
  | error e =>
    obtain ⟨msg⟩ := e
    exact ⟨st', _, rfl, h'⟩

/-- The requests are answered one by one, up to the first that cannot be. -/
theorem serve_cases (sys : Nat → System) (turn : Turn) {ps : List Str} (h : Serving t v i ms ps st)
    {impls : Implementations} (hreal : impls.crypto.deterministic = false) (k : Nat) {reqs : List HostRequest}
    {payloads : List Str} (hreqs : (reqs.map fun r => r.payload.bytes) = payloads.map received) :
    (StuckFrom Y sys k payloads ∧ ∃ x st' ps', serve Y sys turn v k impls reqs st = (.raised x, st') ∧
      Serving t v i ms ps' st') ∨
    (¬ StuckFrom Y sys k payloads ∧ ∃ impls' st', serve Y sys turn v k impls reqs st = (.ok impls', st') ∧
      impls'.crypto.deterministic = false ∧
      Serving t v i ms (enqueue ps (replies turn k payloads.length)) st') := by
  -- induction on the payloads: the loop stops at the first unanswerable one
  induction payloads generalizing k reqs ps st impls with
  | nil =>
    obtain rfl : reqs = [] := by simpa using hreqs
    refine Or.inr ⟨id, impls, st, rfl, hreal, ?_⟩
    show Serving t v i ms (enqueue ps []) st
    rw [enqueue_nil h.length_le]
    exact h
  | cons p payloads ih =>
    obtain ⟨req, rest, rfl, hreq, hrest⟩ : ∃ req rest, reqs = req :: rest ∧ req.payload.bytes = received p ∧
        (rest.map fun r => r.payload.bytes) = payloads.map received := by
      cases reqs with
      | nil => simp at hreqs
      | cons req rest =>
        simp only [List.map_cons, List.cons.injEq] at hreqs
        exact ⟨req, rest, rfl, hreqs.1, hreqs.2⟩
    have hraises := dispatch_raises (Y := Y) hreal Policy.empty (sys k) req.payload.bytes
    have hreal' := dispatch_crypto (Y := Y) hreal Policy.empty (sys k) req.payload.bytes
    rw [hreq] at hraises
    by_cases hbad : Unanswerable Y (sys k) (received p)
    · left
      obtain ⟨x, hx⟩ := hraises.2 hbad
      refine ⟨Or.inl hbad, x, st, ps, ?_, h⟩
      rw [← hreq] at hx
      have hraised : deliver v req.id (dispatch Y impls Policy.empty (sys k) req.payload.bytes).1 (turn.reply k) st =
          (.raised x, st) := by
        rw [hx]
        rfl
      rw [serve]
      exact Prog.bind_of_raised hraised
    · have hreturns := Outcome.not_raises_iff.1 (mt hraises.1 hbad)
      rw [← hreq] at hreturns
      obtain ⟨st₁, hst₁, h₁⟩ := h.deliver req.id hreturns (turn.reply k)
      have hstep : serve Y sys turn v k impls (req :: rest) st =
          serve Y sys turn v (k + 1) (dispatch Y impls Policy.empty (sys k) req.payload.bytes).2 rest st₁ := by
        rw [serve]
        exact Prog.bind_of_ok hst₁
      rw [hstep]
      rcases ih h₁ hreal' (k + 1) hrest with ⟨hstuck, x, st', ps', hx, h'⟩ | ⟨hnot, impls', st', hok, hreal'', h'⟩
      · exact Or.inl ⟨Or.inr hstuck, x, st', ps', hx, h'⟩
      · refine Or.inr ⟨fun hstuck => hstuck.elim hbad hnot, impls', st', hok, hreal'', ?_⟩
        rw [enqueue_append] at h'
        exact h'

/-- **`drive` raises exactly when it stalls**, and otherwise returns what the turns make of the handler. It always
leaves the engine in service. -/
theorem drive_cases (sys : Nat → Nat → System) (js : Script) {first : List HostCall} (n turn : Nat) {ps : List Str}
    (h : Serving t v i ms ps st) (impls : Implementations) (hreal : impls.crypto.deterministic = false)
    (hps : enqueue ps (js.turn turn).pump = waiting js first turn) :
    (Stalls Y sys js first turn n ∧ ∃ x st' ps', drive Y sys js v n turn impls st = (.raised x, st') ∧
      Serving t v i ms ps' st') ∨
    (¬ Stalls Y sys js first turn n ∧ ∃ st' ps', drive Y sys js v n turn impls st = (.ok (completed js n turn), st') ∧
      Serving t v i ms ps' st') := by
  induction n generalizing turn ps st impls with
  | zero => exact Or.inr ⟨fun ⟨k, hk, _⟩ => absurd hk (Nat.not_lt_zero k), st, ps, rfl, h⟩
  | succ n ih =>
    rw [stalls_succ]
    obtain ⟨st₁, hpump, h₁⟩ := h.pump (ε := Error) (js.turn turn).pump
    rw [hps] at h₁
    obtain ⟨reqs, st₂, htake, hreqs, h₂⟩ := h₁.takeHostRequests (ε := Error)
    rw [drive, Prog.bind_of_ok hpump, Prog.bind_of_ok htake]
    rcases serve_cases (Y := Y) (sys turn) (js.turn turn) h₂ hreal 0 hreqs with
      ⟨hstuck, x, st₃, ps₃, hserve, h₃⟩ | ⟨hnot, impls₃, st₃, hserve, hreal₃, h₃⟩
    · exact Or.inl ⟨Or.inl hstuck, x, st₃, ps₃, Prog.bind_of_raised hserve, h₃⟩
    obtain ⟨st₄, hsettle, h₄⟩ := h₃.pump (ε := Error) (js.turn turn).settle
    obtain ⟨done, st₅, hdone, hfin, h₅⟩ := h₄.evalInt (ε := Error) (str "__done ? 1 : 0") (js.turn turn)
    rw [Prog.bind_of_ok hserve, Prog.bind_of_ok hsettle, Prog.bind_of_ok hdone]
    by_cases hfinished : Finished (js.turn turn)
    · -- the handler is done: the result is read and the loop ends
      obtain rfl := (hfin 1).2 hfinished
      obtain ⟨st₆, ps₆, hresult, h₆⟩ := h₅.readResult (js.turn turn)
      rw [if_pos (isDone_iff.2 rfl), completed, if_pos hfinished]
      refine Or.inr ⟨?_, st₆, ps₆, hresult, h₆⟩
      rintro (hstuck | ⟨hnf, _⟩)
      · exact hnot hstuck
      · exact hnf hfinished
    · have hmore : ¬ isDone done = true := by
        rw [isDone_iff]
        exact fun h => hfinished ((hfin 1).1 h)
      rw [if_neg hmore, completed, if_neg hfinished]
      have hwait : enqueue (enqueue (enqueue (enqueue [] (replies (js.turn turn) 0 (waiting js first turn).length))
          (js.turn turn).settle) (js.turn turn).check) (js.turn (turn + 1)).pump = waiting js first (turn + 1) := by
        rw [waiting, enqueue_append, enqueue_append, enqueue_append]
        simp only [List.append_assoc]
      rcases ih (turn + 1) h₅ impls₃ hreal₃ hwait with ⟨hstall, x, st', ps', hx, h'⟩ | ⟨hnstall, st', ps', hc, h'⟩
      · exact Or.inl ⟨Or.inr ⟨hfinished, hstall⟩, x, st', ps', hx, h'⟩
      · refine Or.inr ⟨?_, st', ps', hc, h'⟩
        rintro (hstuck | ⟨_, hstall⟩)
        · exact hnot hstuck
        · exact hnstall hstall

end

end MirageLambda
