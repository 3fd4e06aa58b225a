import MirageLambda.Common.BundleRoundtrip
import MirageLambda.Common.ManifestAccepts

/-!
# The arrays of an http capability (common/manifest.ml:154-181)

`parse_http` reads `schemes`, `hosts`, `ports` and `methods` with `List.filter_map`: an element it cannot read is dropped
without an error, and a port is not checked against a range. The parser calls itself strict, the `invoke` loop of the
same file rejects an entry that is no string (manifest.ml:244), and the schema bounds the ports and lists the schemes and
methods (function-manifest.schema.json:66-71).

`schemeOf`, `hostOf`, `portOf` and `methodOf` are the meanings of the elements. `PreservesHttp` is what a strict parser
owes them, and `preserves_http_iff` says when `parse` pays: where every element is one it reads, and where the manifest is
refused for another reason.
-/

namespace MirageLambda
open OCaml

namespace Manifest

/-! ## The entries of a tree -/

def member (name : Str) : Json → Option Json
  | .assoc members => members.lookup name
  | _ => none

/-- The elements of an array member. -/
def array (name : Str) (j : Json) : List Json :=
  match member name j with
  | some (.list xs) => xs
  | _ => []

/-- The http capability entries of a manifest. -/
def httpEntries (j : Json) : List Json := ((member (str "capabilities") j).map (array (str "http"))).getD []

/-! ## The meanings of their elements -/

def schemeOf (x : Json) : Option Scheme := (stringOf x).bind schemeOfString

def hostOf (x : Json) : Option Str := stringOf x

/-- An integer that is a port number, also where it is written as an `` `Intlit ``. -/
def portOf (x : Json) : Option Int :=
  let n? := match x with
    | .int n => some n
    | .intlit s => parseIntnat 63 s
    | _ => none
  n?.filter fun n => 0 ≤ n ∧ n ≤ 65535

def methodOf (x : Json) : Option Method := (stringOf x).bind methodOfString

/-- Every element has a meaning: no wrong type, no unknown scheme or method, no port out of range. -/
structure Meaningful (entry : Json) : Prop where
  schemes : ∀ x ∈ array (str "schemes") entry, (schemeOf x).isSome
  hosts : ∀ x ∈ array (str "hosts") entry, (hostOf x).isSome
  ports : ∀ x ∈ array (str "ports") entry, (portOf x).isSome
  methods : ∀ x ∈ array (str "methods") entry, (methodOf x).isSome

/-- The policy has the meanings of all elements, in order. -/
structure Means (entry : Json) (d : HttpDecl) : Prop where
  schemes : (array (str "schemes") entry).map schemeOf = d.policy.schemes.map some
  hosts : (array (str "hosts") entry).map hostOf = d.policy.hosts.map some
  ports : (array (str "ports") entry).map portOf = d.policy.ports.map some
  methods : (array (str "methods") entry).map methodOf = d.policy.methods.map some

/-- Nothing is dropped, and what has no meaning is refused. -/
structure PreservesHttp (j : Json) : Prop where
  kept : ∀ m, parse j = .ok m → List.Forall₂ Means (httpEntries j) m.capabilities.http
  refused : (∃ entry ∈ httpEntries j, ¬ Meaningful entry) → ∃ e, parse j = .error e

/-- Every element has a meaning, and the ports are `` `Int ``s. -/
def Readable (entry : Json) : Prop :=
  Meaningful entry ∧ ∀ x ∈ array (str "ports") entry, (intOf x).isSome

/-! ## What `parse_http` keeps -/

/-- Reading with `g` and dropping the rest gives the meanings exactly when `g` reads all of them. -/
theorem map_eq_map_some_filterMap {α β : Type} {f g : α → Option β} {xs : List α} :
    xs.map f = (xs.filterMap g).map some ↔ ∀ x ∈ xs, f x = g x ∧ (f x).isSome := by
  induction xs with
  | nil => simp
  | cons x xs ih =>
    rw [List.forall_mem_cons, ← ih]
    cases hg : g x with
    | none =>
      rw [List.filterMap_cons_none hg]
      refine iff_of_false (fun h => ?_) (fun h => ?_)
      · have hlen := congrArg List.length h
        have hle := List.length_filterMap_le g xs
        simp only [List.map_cons, List.length_cons, List.length_map] at hlen
        omega
      · obtain ⟨⟨hfx, hsome⟩, -⟩ := h
        rw [hfx] at hsome
        cases hsome
    | some y =>
      rw [List.filterMap_cons_some hg, List.map_cons, List.map_cons, List.cons.injEq]
      constructor
      · rintro ⟨hfx, hrest⟩
        exact ⟨⟨hfx, by rw [hfx]; rfl⟩, hrest⟩
      · rintro ⟨⟨hfx, -⟩, hrest⟩
        exact ⟨hfx, hrest⟩

/-- What `parse_http` makes of the members of an entry. -/
structure HttpDeclares (label : Str) (members : Members) (d : HttpDecl) : Prop where
  unique : checkNoDuplicates label members = .ok ()
  known : checkKnown label members
    [str "binding", str "schemes", str "hosts", str "ports", str "methods", str "maxResponseBytes"] = .ok ()
  binding : members.lookup (str "binding") = some (.string d.binding.toStr)
  schemes : ∃ xs, members.lookup (str "schemes") = some (.list xs) ∧ d.policy.schemes = xs.filterMap schemeOf
  hosts : ∃ xs, members.lookup (str "hosts") = some (.list xs) ∧ d.policy.hosts = xs.filterMap hostOf
  ports : ∃ xs, members.lookup (str "ports") = some (.list xs) ∧ d.policy.ports = xs.filterMap intOf
  methods : ∃ xs, members.lookup (str "methods") = some (.list xs) ∧ d.policy.methods = xs.filterMap methodOf
  maxResponseBytes : intField label members (str "maxResponseBytes") = .ok d.policy.maxResponseBytes
  some_scheme : d.policy.schemes ≠ []
  some_host : d.policy.hosts ≠ []
  some_method : d.policy.methods ≠ []

theorem parseHttp_eq_ok {label : Str} {x : Json} {d : HttpDecl} :
    parseHttp label x = .ok d ↔ ∃ members, x = .assoc members ∧ HttpDeclares label members d := by
  constructor
  · intro h
    simp only [parseHttp, Outcome.bind_eq_ok, asAssoc_eq_ok, stringField_eq_ok, listField_eq_ok, BindingName.ofString,
      Checked.ofString_eq_ok, Outcome.exit_eq_ok, Outcome.pure_eq, Outcome.ok.injEq] at h
    obtain ⟨members, rfl, _, hunique, _, hknown, b, hb, binding, rfl, sc, hsc, hs, hhs, ps, hps, ms, hms, mr, hmr,
      hscheme, hhost, hmethod, rfl⟩ := h
    exact ⟨members, rfl, hunique, hknown, hb, ⟨sc, hsc, rfl⟩, ⟨hs, hhs, rfl⟩, ⟨ps, hps, rfl⟩, ⟨ms, hms, rfl⟩, hmr,
      hscheme, hhost, hmethod⟩
  · rintro ⟨members, rfl, h⟩
    obtain ⟨sc, hsc, hschemes⟩ := h.schemes
    obtain ⟨hs, hhs, hhosts⟩ := h.hosts
    obtain ⟨ps, hps, hports⟩ := h.ports
    obtain ⟨ms, hms, hmethods⟩ := h.methods
    have hscheme := h.some_scheme
    have hhost := h.some_host
    have hmethod := h.some_method
    obtain ⟨binding, schemes, hosts, ports, methods, maxResponseBytes⟩ := d
    simp only at hschemes hhosts hports hmethods hscheme hhost hmethod
    subst hschemes hhosts hports hmethods
    simp only [parseHttp, Outcome.bind_eq_ok, asAssoc_eq_ok, stringField_eq_ok, listField_eq_ok, BindingName.ofString,
      Checked.ofString_eq_ok, Outcome.exit_eq_ok, Outcome.pure_eq]
    exact ⟨members, rfl, (), h.unique, (), h.known, _, h.binding, binding, rfl, sc, hsc, hs, hhs, ps, hps, ms, hms, _,
      h.maxResponseBytes, hscheme, hhost, hmethod, rfl⟩

theorem array_assoc {name : Str} {members : Members} {xs : List Json} (h : members.lookup name = some (.list xs)) :
    array name (.assoc members) = xs := by
  simp only [array, member, h]

/-- An array that is read with `g` keeps the meanings of all elements exactly when `g` reads them. -/
theorem map_array_iff {α : Type} {f g : Json → Option α} {name : Str} {members : Members} {xs : List Json} {ks : List α}
    (hxs : members.lookup name = some (.list xs)) (hks : ks = xs.filterMap g) :
    (array name (.assoc members)).map f = ks.map some ↔
      ∀ x ∈ array name (.assoc members), f x = g x ∧ (f x).isSome := by
  rw [array_assoc hxs, hks]
  exact map_eq_map_some_filterMap

/-- A port that has a meaning is kept when it is an `` `Int ``. -/
theorem portOf_eq_intOf_iff {x : Json} :
    (portOf x = intOf x ∧ (portOf x).isSome) ↔ (portOf x).isSome ∧ (intOf x).isSome := by
  cases x with
  | int n =>
    by_cases hn : 0 ≤ n ∧ n ≤ 65535
    · simp [portOf, intOf, hn]
    · simp [portOf, intOf, hn]
  | intlit s => cases h : portOf (.intlit s) <;> simp [intOf]
  | _ => simp [portOf, intOf]

/-- **An accepted entry is kept whole exactly when all of it is readable.** -/
theorem HttpDeclares.means_iff {label : Str} {members : Members} {d : HttpDecl} (h : HttpDeclares label members d) :
    Means (.assoc members) d ↔ Readable (.assoc members) := by
  obtain ⟨sc, hsc, hschemes⟩ := h.schemes
  obtain ⟨hs, hhs, hhosts⟩ := h.hosts
  obtain ⟨ps, hps, hports⟩ := h.ports
  obtain ⟨ms, hms, hmethods⟩ := h.methods
  have eschemes := map_array_iff (f := schemeOf) hsc hschemes
  have ehosts := map_array_iff (f := hostOf) hhs hhosts
  have eports := map_array_iff (f := portOf) hps hports
  have emethods := map_array_iff (f := methodOf) hms hmethods
  constructor
  · intro h
    refine ⟨⟨fun x hx => ?_, fun x hx => ?_, fun x hx => ?_, fun x hx => ?_⟩, fun x hx => ?_⟩
    · exact (eschemes.1 h.schemes x hx).2
    · exact (ehosts.1 h.hosts x hx).2
    · exact (eports.1 h.ports x hx).2
    · exact (emethods.1 h.methods x hx).2
    · exact (portOf_eq_intOf_iff.1 (eports.1 h.ports x hx)).2
  · rintro ⟨h, hints⟩
    refine ⟨eschemes.2 fun x hx => ?_, ehosts.2 fun x hx => ?_, eports.2 fun x hx => ?_, emethods.2 fun x hx => ?_⟩
    · exact ⟨rfl, h.schemes x hx⟩
    · exact ⟨rfl, h.hosts x hx⟩
    · exact portOf_eq_intOf_iff.2 ⟨h.ports x hx, hints x hx⟩
    · exact ⟨rfl, h.methods x hx⟩

/-! ## Which trees are accepted -/

/-- The members of an http entry that `parse_http` accepts: of each array but `ports` one element is enough. -/
structure HttpAccepted (label : Str) (members : Members) : Prop where
  unique : checkNoDuplicates label members = .ok ()
  known : checkKnown label members
    [str "binding", str "schemes", str "hosts", str "ports", str "methods", str "maxResponseBytes"] = .ok ()
  binding : ∃ s, members.lookup (str "binding") = some (.string s) ∧ bindingNameCheck s = .ok ()
  schemes : ∃ xs, members.lookup (str "schemes") = some (.list xs) ∧ ∃ x ∈ xs, (schemeOf x).isSome
  hosts : ∃ xs, members.lookup (str "hosts") = some (.list xs) ∧ ∃ x ∈ xs, (hostOf x).isSome
  ports : ∃ xs, members.lookup (str "ports") = some (.list xs)
  methods : ∃ xs, members.lookup (str "methods") = some (.list xs) ∧ ∃ x ∈ xs, (methodOf x).isSome
  maxResponseBytes : ∃ n, intField label members (str "maxResponseBytes") = .ok n

theorem filterMap_ne_nil_iff {α β : Type} {f : α → Option β} {xs : List α} :
    xs.filterMap f ≠ [] ↔ ∃ x ∈ xs, (f x).isSome := by
  simp [List.filterMap_eq_nil_iff, Option.isSome_iff_ne_none]

theorem exists_parseHttp_eq_ok {label : Str} {x : Json} :
    (∃ d, parseHttp label x = .ok d) ↔ ∃ members, x = .assoc members ∧ HttpAccepted label members := by
  constructor
  · rintro ⟨d, hd⟩
    obtain ⟨members, rfl, h⟩ := parseHttp_eq_ok.1 hd
    obtain ⟨sc, hsc, hschemes⟩ := h.schemes
    obtain ⟨hs, hhs, hhosts⟩ := h.hosts
    obtain ⟨ps, hps, -⟩ := h.ports
    obtain ⟨ms, hms, hmethods⟩ := h.methods
    refine ⟨members, rfl, h.unique, h.known, ⟨_, h.binding, d.binding.2⟩, ⟨sc, hsc, ?_⟩, ⟨hs, hhs, ?_⟩, ⟨ps, hps⟩,
      ⟨ms, hms, ?_⟩, _, h.maxResponseBytes⟩
    · rw [← filterMap_ne_nil_iff, ← hschemes]
      exact h.some_scheme
    · rw [← filterMap_ne_nil_iff, ← hhosts]
      exact h.some_host
    · rw [← filterMap_ne_nil_iff, ← hmethods]
      exact h.some_method
  · rintro ⟨members, rfl, h⟩
    obtain ⟨b, hb, hcheck⟩ := h.binding
    obtain ⟨sc, hsc, hscheme⟩ := h.schemes
    obtain ⟨hs, hhs, hhost⟩ := h.hosts
    obtain ⟨ps, hps⟩ := h.ports
    obtain ⟨ms, hms, hmethod⟩ := h.methods
    obtain ⟨mr, hmr⟩ := h.maxResponseBytes
    refine ⟨⟨⟨b, hcheck⟩, ⟨sc.filterMap schemeOf, hs.filterMap hostOf, ps.filterMap intOf, ms.filterMap methodOf, mr⟩⟩,
      parseHttp_eq_ok.2 ⟨members, rfl, ?_⟩⟩
    exact
      { unique := h.unique
        known := h.known
        binding := hb
        schemes := ⟨sc, hsc, rfl⟩
        hosts := ⟨hs, hhs, rfl⟩
        ports := ⟨ps, hps, rfl⟩
        methods := ⟨ms, hms, rfl⟩
        maxResponseBytes := hmr
        some_scheme := filterMap_ne_nil_iff.2 hscheme
        some_host := filterMap_ne_nil_iff.2 hhost
        some_method := filterMap_ne_nil_iff.2 hmethod }

/-- The members of a capability object that `parse_capabilities` accepts. -/
structure CapabilitiesAccepted (members : Members) : Prop where
  unique : checkNoDuplicates (str "capabilities") members = .ok ()
  known : checkKnown (str "capabilities") members
    [str "kv", str "http", str "clock", str "random", str "logs", str "invoke"] = .ok ()
  kv : ∃ xs, group members (str "kv") = some xs ∧ ∀ x ∈ xs, ∃ k, parseKv (str "capabilities") x = .ok k
  http : ∃ xs, group members (str "http") = some xs ∧
    ∀ x ∈ xs, ∃ entry, x = .assoc entry ∧ HttpAccepted (str "capabilities") entry
  clock : ∃ v, parseClock (str "capabilities") members = .ok v
  random : ∃ v, parseRandom (str "capabilities") members = .ok v
  logs : ∃ v, parseLogs (str "capabilities") members = .ok v
  invoke : ∃ xs, group members (str "invoke") = some xs ∧ ∀ x ∈ xs, ∃ s, x = .string s ∧ Invokable s false

theorem exists_parseCapabilities_eq_ok {c : Json} :
    (∃ d, parseCapabilities c = .ok d) ↔ ∃ members, c = .assoc members ∧ CapabilitiesAccepted members := by
  constructor
  · rintro ⟨d, hd⟩
    obtain ⟨members, rfl, h⟩ := parseCapabilities_eq_ok.1 hd
    obtain ⟨kvs, hkvs, hkv⟩ := h.kv
    obtain ⟨https, hhttps, hhttp⟩ := h.http
    obtain ⟨invokes, hinvokes, hinvoke⟩ := h.invoke
    refine ⟨members, rfl, h.unique, h.known, ⟨kvs, hkvs, exists_forall₂.1 ⟨_, hkv⟩⟩, ⟨https, hhttps, ?_⟩, ⟨_, h.clock⟩,
      ⟨_, h.random⟩, ⟨_, h.logs⟩, invokes, hinvokes, ?_⟩
    · exact fun x hx => exists_parseHttp_eq_ok.1 (exists_forall₂.1 ⟨_, hhttp⟩ x hx)
    · exact fun x hx => exists_declaresInvoke.1 (exists_forall₂.1 ⟨_, hinvoke⟩ x hx)
  · rintro ⟨members, rfl, h⟩
    obtain ⟨kvs, hkvs, hkv⟩ := h.kv
    obtain ⟨https, hhttps, hhttp⟩ := h.http
    obtain ⟨invokes, hinvokes, hinvoke⟩ := h.invoke
    obtain ⟨clock, hclock⟩ := h.clock
    obtain ⟨random, hrandom⟩ := h.random
    obtain ⟨logs, hlogs⟩ := h.logs
    obtain ⟨kv, hkv⟩ := exists_forall₂.2 hkv
    obtain ⟨http, hhttp⟩ := exists_forall₂.2 fun x hx => exists_parseHttp_eq_ok.2 (hhttp x hx)
    obtain ⟨invoke, hinvoke⟩ := exists_forall₂.2 fun x hx => exists_declaresInvoke.2 (hinvoke x hx)
    exact ⟨⟨kv, http, clock, random, logs, invoke⟩, parseCapabilities_eq_ok.2 ⟨members, rfl, h.unique, h.known,
      ⟨kvs, hkvs, hkv⟩, ⟨https, hhttps, hhttp⟩, hclock, hrandom, hlogs, invokes, hinvokes, hinvoke⟩⟩

/-- The trees that every check of `parse` lets through. -/
def Accepted (j : Json) : Prop :=
  ∃ members ms, j = .assoc members ∧ ReachesCapabilities members (.assoc ms) ∧ CapabilitiesAccepted ms ∧
    ∃ r v, field (str "manifest") members (str "retry") = .ok r ∧ parseRetry r = .ok v

theorem accepted_iff {j : Json} : Accepted j ↔ ∃ m, parse j = .ok m := by
  constructor
  · rintro ⟨members, ms, hj, hreach, hcaps, hretry⟩
    obtain ⟨d, hd⟩ := exists_parseCapabilities_eq_ok.2 ⟨ms, rfl, hcaps⟩
    obtain ⟨m, hm, -⟩ := exists_parse_eq_ok.2 ⟨members, _, hj, hreach, hd, hretry⟩
    exact ⟨m, hm⟩
  · rintro ⟨m, hm⟩
    obtain ⟨members, c, hj, hreach, hd, hretry⟩ := exists_parse_eq_ok.1 ⟨m, hm, rfl⟩
    obtain ⟨ms, rfl, hcaps⟩ := exists_parseCapabilities_eq_ok.1 ⟨_, hd⟩
    exact ⟨members, ms, hj, hreach, hcaps, hretry⟩

/-- The http entries of an accepted tree are those that were declared. -/
theorem forall₂_httpEntries {j : Json} {m : Manifest} (h : parse j = .ok m) :
    List.Forall₂ (fun x d => ∃ entry, x = .assoc entry ∧ HttpDeclares (str "capabilities") entry d) (httpEntries j)
      m.capabilities.http := by
  obtain ⟨members, c, rfl, hreach, hd, -⟩ := exists_parse_eq_ok.1 ⟨m, h, rfl⟩
  obtain ⟨ms, rfl, hdeclares⟩ := parseCapabilities_eq_ok.1 hd
  obtain ⟨xs, hxs, hhttp⟩ := hdeclares.http
  have hlookup := field_eq_ok.1 hreach.capabilities
  have hentries : httpEntries (.assoc members) = xs := by
    simp only [httpEntries, member, hlookup, Option.map_some, Option.getD_some, array]
    unfold group at hxs
    cases hms : ms.lookup (str "http") with
    | none =>
      rw [hms, Option.some.injEq] at hxs
      exact hxs
    | some x =>
      rw [hms] at hxs
      cases x with
      | list ys => exact Option.some.inj hxs
      | _ => cases hxs
  rw [hentries]
  exact hhttp.imp fun x d hx => parseHttp_eq_ok.1 hx

theorem forall₂_iff_forall {α β : Type} {R S : α → β → Prop} {P : α → Prop} (hRS : ∀ x y, R x y → (S x y ↔ P x))
    {xs : List α} {ys : List β} (h : List.Forall₂ R xs ys) : List.Forall₂ S xs ys ↔ ∀ x ∈ xs, P x := by
  induction h with
  | nil => simp
  | cons hxy _ ih => rw [List.forall₂_cons, List.forall_mem_cons, ih, hRS _ _ hxy]

/-- **An accepted manifest keeps its http policies whole exactly when their elements are readable.** -/
theorem kept_iff {j : Json} {m : Manifest} (h : parse j = .ok m) :
    List.Forall₂ Means (httpEntries j) m.capabilities.http ↔ ∀ entry ∈ httpEntries j, Readable entry := by
  refine forall₂_iff_forall ?_ (forall₂_httpEntries h)
  rintro _ d ⟨members, rfl, hdeclares⟩
  exact hdeclares.means_iff

/-- **The strict parser drops nothing** exactly when every element of an http entry is readable, or the manifest is refused
for another reason; where it raises, every element has to have a meaning. -/
theorem preserves_http_iff (j : Json) : PreservesHttp j ↔
    (∀ entry ∈ httpEntries j, Readable entry) ∨
      (¬ Accepted j ∧ (ParseRaises j → ∀ entry ∈ httpEntries j, Meaningful entry)) := by
  rw [accepted_iff, ← parse_raises_iff]
  cases h : parse j with
  | ok m =>
    have hno : ¬ ∃ e, (Outcome.ok m : Outcome Validation Manifest) = .error e := by simp
    constructor
    · rintro ⟨hkept, -⟩
      exact Or.inl ((kept_iff h).1 (hkept m h))
    · rintro (hreadable | ⟨hrefused, -⟩)
      · refine ⟨fun m' hm' => ?_, fun ⟨entry, hentry, hbad⟩ => absurd (hreadable entry hentry).1 hbad⟩
        rw [h, Outcome.ok.injEq] at hm'
        subst hm'
        exact (kept_iff h).2 hreadable
      · exact absurd ⟨m, rfl⟩ hrefused
  | error e =>
    refine iff_of_true ⟨fun m hm => ?_, fun _ => ⟨e, h⟩⟩ (Or.inr ⟨by simp, fun hraises => ?_⟩)
    · rw [h] at hm
      cases hm
    · exact absurd hraises (Outcome.raises_error e)
  | raised x =>
    have hno : ¬ ∃ e, parse j = .error e := by simp [h]
    constructor
    · rintro ⟨-, hrefused⟩
      refine Or.inr ⟨by simp, fun _ entry hentry => ?_⟩
      by_contra hbad
      exact hno (hrefused ⟨entry, hentry, hbad⟩)
    · intro hcond
      refine ⟨fun m hm => ?_, fun ⟨entry, hentry, hbad⟩ => ?_⟩
      · rw [h] at hm
        cases hm
      · rcases hcond with hreadable | ⟨-, hmeaningful⟩
        · exact absurd (hreadable entry hentry).1 hbad
        · exact absurd (hmeaningful (Outcome.raises_raised x) entry hentry) hbad

/-- One host, a port that is a string, a port out of range, and a method that is not known. -/
def lossyEntry : Json :=
  .assoc
    [(str "binding", .string (str "api")), (str "schemes", .list [.string (str "https")]),
     (str "hosts", .list [.string (str "example.com")]), (str "ports", .list [.string (str "443"), .int 70000]),
     (str "methods", .list [.string (str "GET"), .string (str "TRACE")]), (str "maxResponseBytes", .int 1024)]

def lossyManifest : Json :=
  .assoc
    [(str "schemaVersion", .int 1), (str "name", .string (str "hello")),
     (str "entrypoint", .string (str "main.js")), (str "export", .string (str "default")),
     (str "runtime", .string (str "quickjs-2026-06-04")), (str "input", CanonicalJson.jsonTree Bundle.sampleIo),
     (str "output", CanonicalJson.jsonTree Bundle.sampleIo), (str "limits", CanonicalJson.jsonTree Bundle.sampleLimits),
     (str "capabilities", .assoc [(str "http", .list [lossyEntry])]),
     (str "retry", .assoc [(str "mode", .string (str "never"))])]

theorem bindingNameCheck_api : bindingNameCheck (str "api") = .ok () := by decide

def lossyPolicy : HttpPolicy :=
  { schemes := [.https], hosts := [str "example.com"], ports := [70000], methods := [.get], maxResponseBytes := 1024 }

def lossyParsed : Manifest :=
  { Bundle.sampleManifest with
    capabilities := { kv := [], http := [⟨⟨str "api", bindingNameCheck_api⟩, lossyPolicy⟩], clock := .none
                      random := .none, logs := false, invoke := [] } }

/-- The string and the unknown method are dropped, and the port out of range is kept, without an error. -/
theorem lossy_manifest_accepted :
    parse lossyManifest = .ok lossyParsed ∧ httpEntries lossyManifest = [lossyEntry] ∧
      (array (str "ports") lossyEntry).map portOf = [none, none] ∧
      (array (str "methods") lossyEntry).map methodOf = [some .get, none] ∧ ¬ PreservesHttp lossyManifest := by
  have hparse : parse lossyManifest = .ok lossyParsed := by decide +kernel
  have hentries : httpEntries lossyManifest = [lossyEntry] := by rfl
  have hports : (array (str "ports") lossyEntry).map portOf = [none, none] := by decide +kernel
  refine ⟨hparse, hentries, hports, by decide +kernel, ?_⟩
  rintro ⟨hkept, -⟩
  have hreadable := (kept_iff hparse).1 (hkept _ hparse) lossyEntry (by rw [hentries]; exact List.mem_cons_self)
  have harray : array (str "ports") lossyEntry = [.string (str "443"), .int 70000] := by rfl
  have hsome := hreadable.1.ports (.int 70000) (by rw [harray]; simp)
  revert hsome
  decide +kernel

end Manifest
end MirageLambda
