import MirageLambda.Common.CanonicalJson
import MirageLambda.Common.Budget
import MirageLambda.Common.Capability

/-!
# Strict manifest parser (common/manifest.ml)

Every helper takes the `label` under which its errors are reported. A result that the source
computes with `let x = …` and unwraps later with `let* x = x` (manifest.ml:188-253) is an
`Outcome.letIn`: the errors of the six capability groups are only looked at once all six have been
computed, an exception in the last one leaves at once.

Two calls below `parse` can raise: `Module_path.of_string` on a short entrypoint, and
`Binding_name.of_string_exn` on the name of an `invoke` entry (manifest.ml:240), which fails exactly
when the function name starts with a digit. `parse_raises_iff` describes the JSON trees that reach
one of them.
-/

namespace MirageLambda
open OCaml

namespace Manifest

abbrev Members := List (Str × Json)

/-! ## Field extraction -/

/-- The `List.iter` over a `seen` table: the first key met twice (manifest.ml:15-19). -/
def firstDuplicate : List Str → Members → Option Str
  | _, [] => none
  | seen, (k, _) :: xs => if k ∈ seen then some k else firstDuplicate (k :: seen) xs

/-- `check_no_duplicates` (manifest.ml:14). -/
def checkNoDuplicates (label : Str) (assoc : Members) : Outcome Validation Unit :=
  match firstDuplicate [] assoc with
  | some k => .error ⟨label, str "duplicate field " ++ camlString k⟩
  | none => .ok ()

/-- `check_known` (manifest.ml:24). -/
def checkKnown (label : Str) (assoc : Members) (known : List Str) : Outcome Validation Unit :=
  match assoc.find? fun m => !(known.contains m.1) with
  | some (k, _) => .error ⟨label, str "unknown field " ++ camlString k⟩
  | none => .ok ()

/-- `field` (manifest.ml:60). -/
def field (label : Str) (assoc : Members) (name : Str) : Outcome Validation Json :=
  match assoc.lookup name with
  | none => .error ⟨label, str "missing field " ++ camlString name⟩
  | some x => .ok x

/-- The text of the `as_…` errors. -/
def mustBe (name : Str) (what : String) : Str := str "field " ++ camlString name ++ str " must be " ++ str what

def asString (label name : Str) : Json → Outcome Validation Str
  | .string s => .ok s
  | _ => .error ⟨label, mustBe name "a string"⟩

/-- `as_int` (manifest.ml:69); an `` `Intlit `` goes through `int_of_string`. -/
def asInt (label name : Str) : Json → Outcome Validation Int
  | .int n => .ok n
  | .intlit s => match parseIntnat 63 s with
    | some n => .ok n
    | none => .error ⟨label, str "field " ++ camlString name ++ str " bad integer"⟩
  | _ => .error ⟨label, mustBe name "an integer"⟩

def asBool (label name : Str) : Json → Outcome Validation Bool
  | .bool b => .ok b
  | _ => .error ⟨label, mustBe name "a boolean"⟩

def asList (label name : Str) : Json → Outcome Validation (List Json)
  | .list xs => .ok xs
  | _ => .error ⟨label, mustBe name "an array"⟩

def asAssoc (label name : Str) : Json → Outcome Validation Members
  | .assoc xs => .ok xs
  | _ => .error ⟨label, mustBe name "an object"⟩

theorem checkNoDuplicates_returns (label : Str) (assoc : Members) : (checkNoDuplicates label assoc).Returns := by
  unfold checkNoDuplicates
  split <;> simp

theorem checkKnown_returns (label : Str) (assoc : Members) (known : List Str) :
    (checkKnown label assoc known).Returns := by
  unfold checkKnown
  split <;> simp

theorem field_returns (label : Str) (assoc : Members) (name : Str) : (field label assoc name).Returns := by
  unfold field
  split <;> simp

theorem asString_returns (label name : Str) (j : Json) : (asString label name j).Returns := by
  cases j <;> simp [asString]

theorem asInt_returns (label name : Str) (j : Json) : (asInt label name j).Returns := by
  unfold asInt
  split
  · simp
  · split <;> simp
  · simp

theorem asBool_returns (label name : Str) (j : Json) : (asBool label name j).Returns := by
  cases j <;> simp [asBool]

theorem asList_returns (label name : Str) (j : Json) : (asList label name j).Returns := by
  cases j <;> simp [asList]

theorem asAssoc_returns (label name : Str) (j : Json) : (asAssoc label name j).Returns := by
  cases j <;> simp [asAssoc]

theorem asAssoc_eq_ok {label name : Str} {j : Json} {xs : Members} :
    asAssoc label name j = .ok xs ↔ j = .assoc xs := by
  cases j <;> simp [asAssoc]

theorem asList_eq_ok {label name : Str} {j : Json} {xs : List Json} :
    asList label name j = .ok xs ↔ j = .list xs := by
  cases j <;> simp [asList]

/-- A member that has to be a string: `field` then `as_string`. -/
def stringField (label : Str) (assoc : Members) (name : Str) : Outcome Validation Str := do
  let j ← field label assoc name
  asString label name j

/-- A member that has to be an integer: `field` then `as_int`. -/
def intField (label : Str) (assoc : Members) (name : Str) : Outcome Validation Int := do
  let j ← field label assoc name
  asInt label name j

/-- A member that has to be an array: `field` then `as_list`. -/
def listField (label : Str) (assoc : Members) (name : Str) : Outcome Validation (List Json) := do
  let j ← field label assoc name
  asList label name j

theorem stringField_returns (label : Str) (assoc : Members) (name : Str) :
    (stringField label assoc name).Returns :=
  Outcome.returns_bind.2 ⟨field_returns _ _ _, fun _ _ => asString_returns _ _ _⟩

theorem intField_returns (label : Str) (assoc : Members) (name : Str) :
    (intField label assoc name).Returns :=
  Outcome.returns_bind.2 ⟨field_returns _ _ _, fun _ _ => asInt_returns _ _ _⟩

theorem listField_returns (label : Str) (assoc : Members) (name : Str) :
    (listField label assoc name).Returns :=
  Outcome.returns_bind.2 ⟨field_returns _ _ _, fun _ _ => asList_returns _ _ _⟩

/-! ## `io_spec` and limits -/

/-- `Manifest.io_spec` (manifest.ml:28). -/
structure IoSpec where
  format : Str
  maxBytes : Int
deriving DecidableEq, Repr

/-- `parse_io` (manifest.ml:87). -/
def parseIo (label : Str) (json : Json) : Outcome Validation IoSpec := do
  let assoc ← asAssoc label (str "io") json
  checkNoDuplicates label assoc
  checkKnown label assoc [str "format", str "maxBytes"]
  let fmt ← stringField label assoc (str "format")
  let mb ← intField label assoc (str "maxBytes")
  if mb < 0 then .error ⟨label, str "maxBytes must be non-negative"⟩
  else if fmt ≠ str "json" ∧ fmt ≠ str "bytes" then .error ⟨label, str "format must be json or bytes"⟩
  else pure { format := fmt, maxBytes := mb }

/-- `parse_limits` (manifest.ml:101). -/
def parseLimits (json : Json) : Outcome Validation EngineLimits := do
  let label := str "limits"
  let assoc ← asAssoc label (str "limits") json
  checkNoDuplicates label assoc
  checkKnown label assoc
    [str "jsHeapBytes", str "nativeOverheadBytes", str "stackBytes", str "timeoutMs", str "cpuMs",
      str "maxHostCalls", str "maxPendingPromises", str "maxLogBytes", str "maxOutboundBytes",
      str "maxRedirects", str "maxChildInvocations"]
  let jsHeapBytes ← intField label assoc (str "jsHeapBytes")
  let nativeOverheadBytes ← intField label assoc (str "nativeOverheadBytes")
  let stackBytes ← intField label assoc (str "stackBytes")
  let timeoutMs ← intField label assoc (str "timeoutMs")
  let cpuMs ← intField label assoc (str "cpuMs")
  let maxHostCalls ← intField label assoc (str "maxHostCalls")
  let maxPendingPromises ← intField label assoc (str "maxPendingPromises")
  let maxLogBytes ← intField label assoc (str "maxLogBytes")
  let maxOutboundBytes ← intField label assoc (str "maxOutboundBytes")
  let maxRedirects ← intField label assoc (str "maxRedirects")
  let maxChildInvocations ← intField label assoc (str "maxChildInvocations")
  EngineLimits.make
    { jsHeapBytes, nativeOverheadBytes, stackBytes, timeoutMs, cpuMs, maxHostCalls,
      maxPendingPromises, maxLogBytes, maxOutboundBytes, maxRedirects, maxChildInvocations }

/-! ## Capabilities -/

/-- `parse_access` (manifest.ml:129). -/
def parseAccess (label s : Str) : Outcome Validation Access :=
  if s = str "read" then .ok .read
  else if s = str "write" then .ok .write
  else if s = str "read-write" then .ok .readWrite
  else .error ⟨label, str "bad access " ++ camlString s⟩

/-- `parse_kv` (manifest.ml:136). -/
def parseKv (label : Str) (json : Json) : Outcome Validation KvDecl := do
  let assoc ← asAssoc label (str "kv") json
  checkNoDuplicates label assoc
  checkKnown label assoc [str "binding", str "store", str "access", str "prefix"]
  let b ← stringField label assoc (str "binding")
  let binding ← BindingName.ofString b
  let s ← stringField label assoc (str "store")
  let store ← StoreId.ofString s
  let a ← stringField label assoc (str "access")
  let access ← parseAccess label a
  let p ← stringField label assoc (str "prefix")
  let keyPrefix ← KeyPrefix.ofString p
  pure { binding, store, access, keyPrefix }

/-- The `List.filter_map` arguments of `parse_http`: what is not a string (an integer) is dropped. -/
def stringOf : Json → Option Str
  | .string s => some s
  | _ => none

def intOf : Json → Option Int
  | .int n => some n
  | _ => none

/-- `parse_http` (manifest.ml:154). -/
def parseHttp (label : Str) (json : Json) : Outcome Validation HttpDecl := do
  let assoc ← asAssoc label (str "http") json
  checkNoDuplicates label assoc
  checkKnown label assoc
    [str "binding", str "schemes", str "hosts", str "ports", str "methods", str "maxResponseBytes"]
  let b ← stringField label assoc (str "binding")
  let binding ← BindingName.ofString b
  let sc ← listField label assoc (str "schemes")
  let schemes := sc.filterMap fun j => (stringOf j).bind schemeOfString
  let h ← listField label assoc (str "hosts")
  let hosts := h.filterMap stringOf
  let p ← listField label assoc (str "ports")
  let ports := p.filterMap intOf
  let m ← listField label assoc (str "methods")
  let methods := m.filterMap fun j => (stringOf j).bind methodOfString
  let maxResponseBytes ← intField label assoc (str "maxResponseBytes")
  if schemes = [] then .error ⟨label, str "http binding needs >=1 scheme"⟩
  else if hosts = [] then .error ⟨label, str "http binding needs >=1 host"⟩
  else if methods = [] then .error ⟨label, str "http binding needs >=1 method"⟩
  else pure { binding, policy := { schemes, hosts, ports, methods, maxResponseBytes } }

/-- The `loop`s over `kv` and `http` items. -/
def parseItems {α : Type} (parse : Json → Outcome Validation α) : List Json → Outcome Validation (List α)
  | [] => .ok []
  | x :: rest => do
    let d ← parse x
    let ds ← parseItems parse rest
    pure (d :: ds)

/-- `String.map (fun c -> if c = '-' then '_' else c)` (manifest.ml:239). -/
def invokeBinding (name : FunctionName) : Str :=
  name.toStr.map fun c => if c = chr '-' then chr '_' else c

/-- The `loop` over `invoke` entries (manifest.ml:230). -/
def parseInvoke (label : Str) : List Json → Outcome Validation (List InvokeDecl)
  | [] => .ok []
  | .string s :: rest => do
    let target ← FunctionRef.ofString s
    let binding ← BindingName.ofStringExn (invokeBinding target.name)
    let ds ← parseInvoke label rest
    pure ({ binding, target } :: ds)
  | _ :: _ => .error ⟨label, str "invoke entries must be strings"⟩

/-- An optional array member: `[]` when absent (the `kv`, `http` and `invoke` groups). -/
def optionalItems {α : Type} (label : Str) (assoc : Members) (name : Str)
    (items : List Json → Outcome Validation (List α)) : Outcome Validation (List α) :=
  match assoc.lookup name with
  | none => .ok []
  | some j => do
    let xs ← asList label name j
    items xs

def parseClock (label : Str) (assoc : Members) : Outcome Validation Clock :=
  match assoc.lookup (str "clock") with
  | none => .ok .none
  | some (.string s) =>
    if s = str "monotonic" then .ok .monotonic
    else if s = str "wall" then .ok .wall
    else .error ⟨label, str "clock must be monotonic or wall"⟩
  | some _ => .error ⟨label, str "clock must be monotonic or wall"⟩

def parseRandom (label : Str) (assoc : Members) : Outcome Validation RandomDecl :=
  match assoc.lookup (str "random") with
  | none => .ok .none
  | some (.string s) =>
    if s = str "cryptographic" then .ok .cryptographic
    else .error ⟨label, str "random must be cryptographic"⟩
  | some _ => .error ⟨label, str "random must be cryptographic"⟩

def parseLogs (label : Str) (assoc : Members) : Outcome Validation Bool :=
  match assoc.lookup (str "logs") with
  | none => .ok false
  | some j => asBool label (str "logs") j

/-- `parse_capabilities` (manifest.ml:183). -/
def parseCapabilities (json : Json) : Outcome Validation Declarations := do
  let label := str "capabilities"
  let assoc ← asAssoc label (str "capabilities") json
  checkNoDuplicates label assoc
  checkKnown label assoc [str "kv", str "http", str "clock", str "random", str "logs", str "invoke"]
  (optionalItems label assoc (str "kv") (parseItems (parseKv label))).letIn fun kv =>
  (optionalItems label assoc (str "http") (parseItems (parseHttp label))).letIn fun http =>
  (parseClock label assoc).letIn fun clock =>
  (parseRandom label assoc).letIn fun random =>
  (parseLogs label assoc).letIn fun logs =>
  (optionalItems label assoc (str "invoke") (parseInvoke label)).letIn fun invoke => do
    let kv ← kv
    let http ← http
    let clock ← clock
    let random ← random
    let logs ← logs
    let invoke ← invoke
    pure { kv, http, clock, random, logs, invoke }

/-! ## `parse` -/

/-- `Manifest.retry_mode` (manifest.ml:33). -/
inductive RetryMode where
  | never | onError | always
deriving DecidableEq, Repr

/-- `parse_retry` (manifest.ml:250). -/
def parseRetry (json : Json) : Outcome Validation RetryMode := do
  let label := str "retry"
  let assoc ← asAssoc label (str "retry") json
  checkNoDuplicates label assoc
  checkKnown label assoc [str "mode"]
  let m ← stringField label assoc (str "mode")
  if m = str "never" then pure .never
  else if m = str "on-error" then pure .onError
  else if m = str "always" then pure .always
  else .error ⟨label, str "retry.mode must be never|on-error|always"⟩

end Manifest

/-- `Manifest.t` (manifest.ml:35). -/
structure Manifest where
  schemaVersion : Int
  name : FunctionName
  entrypoint : ModulePath
  exportName : Str
  runtime : Str
  input : Manifest.IoSpec
  output : Manifest.IoSpec
  limits : EngineLimits
  capabilities : Declarations
  retry : Manifest.RetryMode
deriving DecidableEq

namespace Manifest

/-- `ensure` (manifest.ml:11). -/
def ensure (cond : Bool) (err : Validation) : Outcome Validation Unit := if cond then .ok () else .error err

/-- `valid_export` (manifest.ml:281). -/
def validExport (s : Str) : Bool :=
  s == str "default" || s == str "handler" || s == str "main" || (decide (s.length > 0) && decide (s.length ≤ 63))

/-- The members of a manifest, as `check_known` lists them (manifest.ml:268). -/
def knownMembers : List Str :=
  [str "schemaVersion", str "name", str "entrypoint", str "export", str "runtime", str "input",
    str "output", str "limits", str "capabilities", str "retry"]

/-- `Manifest.parse` (manifest.ml:263). -/
def parse (json : Json) : Outcome Validation Manifest := do
  let label := str "manifest"
  let assoc ← asAssoc label (str "manifest") json
  checkNoDuplicates label assoc
  checkKnown label assoc knownMembers
  let sv ← intField label assoc (str "schemaVersion")
  ensure (sv == 1) ⟨label, str "schemaVersion must be 1"⟩
  let n ← stringField label assoc (str "name")
  let name ← FunctionName.ofString n
  let e ← stringField label assoc (str "entrypoint")
  let entrypoint ← ModulePath.ofString e
  let exportName ← stringField label assoc (str "export")
  ensure (validExport exportName) ⟨label, str "export must be default|handler|main or a name"⟩
  let runtime ← stringField label assoc (str "runtime")
  ensure (runtime == str "quickjs-2026-06-04") ⟨label, str "runtime must be quickjs-2026-06-04"⟩
  let i ← field label assoc (str "input")
  let input ← parseIo label i
  let o ← field label assoc (str "output")
  let output ← parseIo label o
  let l ← field label assoc (str "limits")
  let limits ← parseLimits l
  let c ← field label assoc (str "capabilities")
  let capabilities ← parseCapabilities c
  let r ← field label assoc (str "retry")
  let retry ← parseRetry r
  pure { schemaVersion := sv, name, entrypoint, exportName, runtime, input, output, limits,
         capabilities, retry }

/-- `Manifest.parse_string` (manifest.ml:303). -/
def parseString (Y : Yojson) (s : Str) : Outcome Validation Manifest :=
  match Y.fromString s with
  | .ok json => parse json
  | .error msg => .error ⟨str "manifest", msg⟩

/-! ## Which manifests raise -/

theorem slugOfString_returns (label s : Str) : (Slug.ofString label s).Returns :=
  Checked.ofString_returns.2 (validateSlug_returns label s)

theorem parseIo_returns (label : Str) (j : Json) : (parseIo label j).Returns := by
  unfold parseIo
  simp only [Outcome.returns_bind, asAssoc_returns, checkNoDuplicates_returns, checkKnown_returns,
    stringField_returns, intField_returns, true_and]
  intros
  repeat' split
  all_goals simp

theorem parseLimits_returns (j : Json) : (parseLimits j).Returns := by
  unfold parseLimits
  simp only [Outcome.returns_bind, asAssoc_returns, checkNoDuplicates_returns, checkKnown_returns,
    intField_returns, EngineLimits.make_returns, true_and, implies_true]

theorem parseAccess_returns (label s : Str) : (parseAccess label s).Returns := by
  unfold parseAccess
  repeat' split
  all_goals simp

theorem parseKv_returns (label : Str) (j : Json) : (parseKv label j).Returns := by
  unfold parseKv BindingName.ofString StoreId.ofString KeyPrefix.ofString
  simp only [Outcome.returns_bind, asAssoc_returns, checkNoDuplicates_returns, checkKnown_returns,
    stringField_returns, Checked.ofString_returns, bindingNameCheck_returns, slugOfString_returns,
    parseAccess_returns, keyPrefixCheck_returns, Outcome.pure_eq, Outcome.returns_ok, true_and,
    implies_true]

theorem parseHttp_returns (label : Str) (j : Json) : (parseHttp label j).Returns := by
  unfold parseHttp BindingName.ofString
  simp only [Outcome.returns_bind, asAssoc_returns, checkNoDuplicates_returns, checkKnown_returns,
    stringField_returns, intField_returns, listField_returns, Checked.ofString_returns,
    bindingNameCheck_returns, true_and]
  intros
  repeat' split
  all_goals simp

theorem parseItems_returns {α : Type} {parse : Json → Outcome Validation α}
    (h : ∀ j, (parse j).Returns) (xs : List Json) : (parseItems parse xs).Returns := by
  induction xs with
  | nil => simp [parseItems]
  | cons x xs ih => simp [parseItems, Outcome.returns_bind, h x, ih]

theorem optionalItems_returns {α : Type} {label name : Str} {assoc : Members}
    {items : List Json → Outcome Validation (List α)} (h : ∀ xs, (items xs).Returns) :
    (optionalItems label assoc name items).Returns := by
  unfold optionalItems
  split
  · simp
  · simp [Outcome.returns_bind, asList_returns, h]

theorem parseClock_returns (label : Str) (assoc : Members) : (parseClock label assoc).Returns := by
  unfold parseClock
  repeat' split
  all_goals simp

theorem parseRandom_returns (label : Str) (assoc : Members) : (parseRandom label assoc).Returns := by
  unfold parseRandom
  repeat' split
  all_goals simp

theorem parseLogs_returns (label : Str) (assoc : Members) : (parseLogs label assoc).Returns := by
  unfold parseLogs
  split
  · simp
  · exact asBool_returns _ _ _

theorem parseRetry_returns (j : Json) : (parseRetry j).Returns := by
  unfold parseRetry
  simp only [Outcome.returns_bind, asAssoc_returns, checkNoDuplicates_returns, checkKnown_returns,
    stringField_returns, true_and]
  intros
  repeat' split
  all_goals simp

theorem ensure_returns (b : Bool) (e : Validation) : (ensure b e).Returns := by
  unfold ensure
  split <;> simp

theorem ensure_eq_ok {b : Bool} {e : Validation} {u : Unit} : ensure b e = .ok u ↔ b = true := by
  unfold ensure
  split <;> simp_all

/-- The two `String.sub`s around `@` stay inside the string. -/
theorem functionRef_ofString_returns (s : Str) : (FunctionRef.ofString s).Returns := by
  unfold FunctionRef.ofString
  split
  · simp
  · rename_i i hi
    have hlt : i < s.length := by
      unfold indexOpt at hi
      exact (List.findIdx?_eq_some_iff_findIdx_eq.1 hi).1
    have h1 : (sub s 0 i : Outcome Validation Str) = .ok ((s.drop 0).take i) :=
      sub_nat 0 i (by omega)
    have h2 : (sub s (i + 1) ((s.length : Int) - i - 1) : Outcome Validation Str) =
        .ok ((s.drop (i + 1)).take (s.length - i - 1)) := by
      rw [← sub_nat (i + 1) (s.length - i - 1) (by omega)]
      congr 1
      omega
    rw [h1, h2]
    simp only [Outcome.ok_bind, Outcome.returns_bind, FunctionName.ofString, Qualifier.ofString,
      slugOfString_returns, Outcome.pure_eq, Outcome.returns_ok, true_and, implies_true]

/-- The binding name derived from a function name is refused exactly when the name starts with a
digit: everything else a slug allows is an identifier once hyphens are underscores. -/
theorem invokeBinding_returns {ε : Type} (name : FunctionName) :
    (BindingName.ofStringExn (invokeBinding name) : Outcome ε BindingName).Returns ↔
      isDigit (byteAt name.toStr 0) = false := by
  obtain ⟨h0, h63, hfirst, _, hall⟩ := name.isSlug
  have hmap : ∀ c, (isAlnum c || isHyphen c) = true →
      isIdentChar (if c = chr '-' then chr '_' else c) = true :=
    forall_byte (by decide +kernel)
  have hstart : ∀ c, isAlnum c = true →
      (isIdentStart (if c = chr '-' then chr '_' else c) = true ↔ isDigit c = false) :=
    forall_byte (by decide +kernel)
  have hhead : byteAt (invokeBinding name) 0 =
      (if byteAt name.toStr 0 = chr '-' then chr '_' else byteAt name.toStr 0) := by
    unfold invokeBinding byteAt
    cases hn : name.toStr with
    | nil => simp [hn] at h0
    | cons c cs => simp
  unfold BindingName.ofStringExn
  rw [Checked.ofStringExn_returns, ← hstart _ hfirst, ← hhead]
  constructor
  · rintro ⟨v, hv⟩
    have := bindingNameCheck_eq_ok.1 v.2
    rw [show v.1 = invokeBinding name from hv] at this
    exact this.2.2.1
  · intro hs
    refine ⟨⟨invokeBinding name, bindingNameCheck_eq_ok.2 ⟨?_, ?_, hs, ?_⟩⟩, rfl⟩
    · simpa [invokeBinding] using h0
    · simpa [invokeBinding] using h63
    · intro c hc
      obtain ⟨c', hc', rfl⟩ := List.mem_map.1 hc
      exact hmap c' (hall c' hc')

/-- An `invoke` entry that is a well-formed function reference. -/
def Invokable (s : Str) (digit : Bool) : Prop :=
  ∃ r, FunctionRef.ofString s = .ok r ∧ isDigit (byteAt r.name.toStr 0) = digit

/-- The `invoke` loop raises on the first entry whose function name starts with a digit, when every
entry before it was a string naming a function that does not. -/
theorem parseInvoke_raises_iff (label : Str) (xs : List Json) : (parseInvoke label xs).Raises ↔
    ∃ (before : List Str) (s : Str) (after : List Json),
      xs = before.map .string ++ .string s :: after ∧
      (∀ p ∈ before, Invokable p false) ∧ Invokable s true := by
  induction xs with
  | nil => simp [parseInvoke]
  | cons x xs ih =>
    cases x with
    | string s =>
      simp only [parseInvoke, Outcome.raises_bind_of_returns (functionRef_ofString_returns s)]
      constructor
      · rintro ⟨r, hr, hraise⟩
        rcases Outcome.raises_bind.1 hraise with hb | ⟨b, hb, hrest⟩
        · refine ⟨[], s, xs, rfl, by simp, r, hr, ?_⟩
          have := mt (invokeBinding_returns r.name).2 (fun h => h.not_raises hb)
          simpa using this
        · obtain ⟨before, s', after, rfl, hbefore, hs'⟩ := ih.1 (by
            rcases Outcome.raises_bind.1 hrest with h | ⟨_, _, h⟩
            · exact h
            · simp at h)
          refine ⟨s :: before, s', after, rfl, ?_, hs'⟩
          have hret : (BindingName.ofStringExn (invokeBinding r.name) :
              Outcome Validation BindingName).Returns := by rw [hb]; simp
          simp only [List.mem_cons, forall_eq_or_imp]
          exact ⟨⟨r, hr, (invokeBinding_returns r.name).1 hret⟩, hbefore⟩
      · rintro ⟨before, s', after, hxs, hbefore, hs'⟩
        cases before with
        | nil =>
          simp only [List.map_nil, List.nil_append, List.cons.injEq, Json.string.injEq] at hxs
          obtain ⟨rfl, rfl⟩ := hxs
          obtain ⟨r, hr, hd⟩ := hs'
          refine ⟨r, hr, Outcome.raises_bind.2 (Or.inl ?_)⟩
          by_contra hno
          have := (invokeBinding_returns r.name).1 (Outcome.not_raises_iff.1 hno)
          rw [hd] at this
          cases this
        | cons p before =>
          simp only [List.map_cons, List.cons_append, List.cons.injEq, Json.string.injEq] at hxs
          obtain ⟨rfl, rfl⟩ := hxs
          obtain ⟨r, hr, hd⟩ := hbefore s (by simp)
          have hrest : (parseInvoke label (before.map .string ++ .string s' :: after)).Raises :=
            ih.2 ⟨before, s', after, rfl, fun p hp => hbefore p (by simp [hp]), hs'⟩
          rcases Outcome.returns_iff.1 ((invokeBinding_returns (ε := Validation) r.name).2 hd) with
            ⟨b, hb⟩ | ⟨e, he⟩
          · exact ⟨r, hr, Outcome.raises_bind.2 (Or.inr ⟨b, hb, Outcome.raises_bind.2 (Or.inl hrest)⟩)⟩
          · unfold BindingName.ofStringExn Checked.ofStringExn at he
            split at he <;> cases he
    | _ =>
      simp only [parseInvoke, Outcome.raises_error, false_iff]
      rintro ⟨before, s, after, hxs, _⟩
      cases before <;> simp at hxs

/-- The capability members whose `invoke` array raises (manifest.ml:186-243). Nothing in the other
groups prevents it: their errors are looked at later. -/
structure InvokeRaises (c : Json) (members : Members) (items : List Json) : Prop where
  isObject : c = .assoc members
  unique : checkNoDuplicates (str "capabilities") members = .ok ()
  known : checkKnown (str "capabilities") members
    [str "kv", str "http", str "clock", str "random", str "logs", str "invoke"] = .ok ()
  invoke : members.lookup (str "invoke") = some (.list items)
  digit : ∃ (before : List Str) (s : Str) (after : List Json),
    items = before.map .string ++ .string s :: after ∧ (∀ p ∈ before, Invokable p false) ∧ Invokable s true

theorem parseCapabilities_raises_iff {c : Json} :
    (parseCapabilities c).Raises ↔ ∃ members items, InvokeRaises c members items := by
  have hkv : ∀ assoc, (optionalItems (str "capabilities") assoc (str "kv")
      (parseItems (parseKv (str "capabilities")))).Returns :=
    fun _ => optionalItems_returns (parseItems_returns (parseKv_returns _))
  have hhttp : ∀ assoc, (optionalItems (str "capabilities") assoc (str "http")
      (parseItems (parseHttp (str "capabilities")))).Returns :=
    fun _ => optionalItems_returns (parseItems_returns (parseHttp_returns _))
  simp only [parseCapabilities, Outcome.raises_bind_of_returns (asAssoc_returns _ _ _),
    Outcome.raises_bind_of_returns (checkNoDuplicates_returns _ _),
    Outcome.raises_bind_of_returns (checkKnown_returns _ _ _), asAssoc_eq_ok,
    Outcome.letIn_of_returns (hkv _), Outcome.letIn_of_returns (hhttp _),
    Outcome.letIn_of_returns (parseClock_returns _ _),
    Outcome.letIn_of_returns (parseRandom_returns _ _),
    Outcome.letIn_of_returns (parseLogs_returns _ _)]
  -- what is left of the chain raises exactly when the `invoke` group does
  have htail : ∀ assoc : Members, ((optionalItems (str "capabilities") assoc (str "invoke")
      (parseInvoke (str "capabilities"))).letIn fun invoke => do
        let kv ← optionalItems (str "capabilities") assoc (str "kv") (parseItems (parseKv (str "capabilities")))
        let http ← optionalItems (str "capabilities") assoc (str "http") (parseItems (parseHttp (str "capabilities")))
        let clock ← parseClock (str "capabilities") assoc
        let random ← parseRandom (str "capabilities") assoc
        let logs ← parseLogs (str "capabilities") assoc
        let invoke ← invoke
        pure ({ kv, http, clock, random, logs, invoke } : Declarations)).Raises ↔
      ∃ items, assoc.lookup (str "invoke") = some (.list items) ∧
        (parseInvoke (str "capabilities") items).Raises := by
    intro assoc
    by_cases hret : (optionalItems (str "capabilities") assoc (str "invoke")
        (parseInvoke (str "capabilities"))).Returns
    · rw [Outcome.letIn_of_returns hret]
      refine iff_of_false (Outcome.Returns.not_raises ?_) ?_
      · simp only [Outcome.returns_bind, hkv, hhttp, parseClock_returns, parseRandom_returns,
          parseLogs_returns, hret, Outcome.pure_eq, Outcome.returns_ok, true_and, implies_true]
      · rintro ⟨items, hlook, hr⟩
        simp only [optionalItems, hlook, asList, Outcome.ok_bind] at hret
        exact hret.not_raises hr
    · obtain ⟨e, he⟩ := Outcome.not_returns_iff.1 hret
      rw [he, Outcome.letIn_raised]
      refine iff_of_true ⟨e, rfl⟩ ?_
      unfold optionalItems at he
      split at he
      · cases he
      · rename_i j hlook
        rcases Outcome.bind_eq_raised.1 he with h | ⟨items, hitems, h⟩
        · exact absurd h (asList_returns _ _ _ e)
        · exact ⟨items, by rw [hlook, asList_eq_ok.1 hitems], e, h⟩
  simp only [htail, parseInvoke_raises_iff]
  constructor
  · rintro ⟨members, hobj, _, hu, _, hk, items, hlook, hd⟩
    exact ⟨members, items, hobj, hu, hk, hlook, hd⟩
  · rintro ⟨members, items, hobj, hu, hk, hlook, hd⟩
    exact ⟨members, hobj, (), hu, (), hk, items, hlook, hd⟩

/-- The members of a manifest object that `parse` has accepted when it reaches `entrypoint`
(manifest.ml:265-277). -/
structure ReachesEntrypoint (members : Members) (e : Str) : Prop where
  unique : checkNoDuplicates (str "manifest") members = .ok ()
  known : checkKnown (str "manifest") members knownMembers = .ok ()
  version : intField (str "manifest") members (str "schemaVersion") = .ok 1
  name : ∃ n v, stringField (str "manifest") members (str "name") = .ok n ∧ FunctionName.ofString n = .ok v
  entrypoint : stringField (str "manifest") members (str "entrypoint") = .ok e

/-- … and when it reaches `capabilities` (manifest.ml:278-297). -/
structure ReachesCapabilities (members : Members) (c : Json) : Prop where
  entrypoint : ∃ e p, ReachesEntrypoint members e ∧ ModulePath.ofString e = .ok p
  exportName : ∃ x, stringField (str "manifest") members (str "export") = .ok x ∧ validExport x = true
  runtime : stringField (str "manifest") members (str "runtime") = .ok (str "quickjs-2026-06-04")
  input : ∃ i v, field (str "manifest") members (str "input") = .ok i ∧ parseIo (str "manifest") i = .ok v
  output : ∃ o v, field (str "manifest") members (str "output") = .ok o ∧ parseIo (str "manifest") o = .ok v
  limits : ∃ l v, field (str "manifest") members (str "limits") = .ok l ∧ parseLimits l = .ok v
  capabilities : field (str "manifest") members (str "capabilities") = .ok c

/-- The JSON trees on which `Manifest.parse` lets an exception out: an entrypoint of three bytes
that is no `.js`, or an `invoke` target whose function name starts with a digit, each reached with
everything before it accepted. -/
def ParseRaises (j : Json) : Prop :=
  ∃ members, j = .assoc members ∧
    ((∃ e, ReachesEntrypoint members e ∧ ShortPath e) ∨
      ∃ c, ReachesCapabilities members c ∧ ∃ ms items, InvokeRaises c ms items)

theorem modulePath_ofString_raises {s : Str} : (ModulePath.ofString s).Raises ↔ ShortPath s := by
  unfold Outcome.Raises ModulePath.ofString
  simp only [Checked.ofString_eq_raised]
  exact modulePathCheck_raised_iff

/-- **Exactly which trees make `Manifest.parse` raise.** -/
theorem parse_raises_iff {j : Json} : (parse j).Raises ↔ ParseRaises j := by
  have hname : ∀ s, (FunctionName.ofString s).Returns := fun s => slugOfString_returns _ s
  unfold parse ParseRaises
  simp only [Outcome.raises_bind_of_returns (asAssoc_returns _ _ _),
    Outcome.raises_bind_of_returns (checkNoDuplicates_returns _ _),
    Outcome.raises_bind_of_returns (checkKnown_returns _ _ _),
    Outcome.raises_bind_of_returns (intField_returns _ _ _),
    Outcome.raises_bind_of_returns (ensure_returns _ _),
    Outcome.raises_bind_of_returns (stringField_returns _ _ _),
    Outcome.raises_bind_of_returns (hname _),
    Outcome.raises_bind_of_returns (field_returns _ _ _),
    Outcome.raises_bind_of_returns (parseIo_returns _ _),
    Outcome.raises_bind_of_returns (parseLimits_returns _),
    Outcome.raises_bind_of_returns (parseRetry_returns _),
    Outcome.raises_bind, modulePath_ofString_raises, parseCapabilities_raises_iff, asAssoc_eq_ok,
    ensure_eq_ok, beq_iff_eq, Outcome.pure_eq, Outcome.raises_ok, and_false, exists_false, or_false]
  constructor
  · rintro ⟨members, hobj, _, hu, _, hk, sv, hsv, _, rfl, n, hn, name, hname, e, he, hrest⟩
    have hreach : ReachesEntrypoint members e := ⟨hu, hk, hsv, ⟨n, name, hn, hname⟩, he⟩
    refine ⟨members, hobj, ?_⟩
    rcases hrest with hshort | ⟨p, hp, x, hx, _, hxv, rt, hrt, _, rfl, i, hi, iv, hiv, o, ho, ov, hov,
      l, hl, lv, hlv, c, hc, hcap⟩
    · exact Or.inl ⟨e, hreach, hshort⟩
    · exact Or.inr ⟨c, ⟨⟨e, p, hreach, hp⟩, ⟨x, hx, hxv⟩, hrt, ⟨i, iv, hi, hiv⟩, ⟨o, ov, ho, hov⟩,
        ⟨l, lv, hl, hlv⟩, hc⟩, hcap⟩
  · rintro ⟨members, hobj, h⟩
    rcases h with ⟨e, hr, hshort⟩ | ⟨c, hr, hcap⟩
    · obtain ⟨n, name, hn, hname⟩ := hr.name
      exact ⟨members, hobj, (), hr.unique, (), hr.known, 1, hr.version, (), rfl, n, hn, name, hname, e,
        hr.entrypoint, Or.inl hshort⟩
    · obtain ⟨e, p, hre, hp⟩ := hr.entrypoint
      obtain ⟨n, name, hn, hname⟩ := hre.name
      obtain ⟨x, hx, hxv⟩ := hr.exportName
      obtain ⟨i, iv, hi, hiv⟩ := hr.input
      obtain ⟨o, ov, ho, hov⟩ := hr.output
      obtain ⟨l, lv, hl, hlv⟩ := hr.limits
      exact ⟨members, hobj, (), hre.unique, (), hre.known, 1, hre.version, (), rfl, n, hn, name, hname, e,
        hre.entrypoint, Or.inr ⟨p, hp, x, hx, (), hxv, _, hr.runtime, (), rfl, i, hi, iv, hiv, o, ho, ov,
          hov, l, hl, lv, hlv, c, hr.capabilities, hcap⟩⟩

end Manifest
end MirageLambda
