import Mathlib.Data.List.Forall2
import MirageLambda.Common.Manifest

/-!
# Which manifests are accepted (common/manifest.ml)

`parse_raises_iff` says which trees raise; here is which trees are accepted, and as what, one group of members at a time.
A group of capabilities that is absent is an empty one (`group`). `Declares` is what `parse_capabilities` accepts;
`exists_parse_eq_ok` says what `parse` does.
-/

namespace MirageLambda
open OCaml

namespace Manifest

/-! ## Lists that correspond -/

section
variable {α β : Type} {R : α → β → Prop} {xs : List α} {ys : List β}

theorem exists_forall₂ : (∃ ys, List.Forall₂ R xs ys) ↔ ∀ x ∈ xs, ∃ y, R x y := by
  induction xs with
  | nil => simp
  | cons x xs ih =>
    rw [List.forall_mem_cons, ← ih]
    constructor
    · rintro ⟨ys, h⟩
      obtain ⟨y, ys', hy, hys', rfl⟩ := List.forall₂_cons_left_iff.1 h
      exact ⟨⟨y, hy⟩, ys', hys'⟩
    · rintro ⟨⟨y, hy⟩, ys, hys⟩
      exact ⟨y :: ys, List.Forall₂.cons hy hys⟩

theorem exists_of_mem_left (h : List.Forall₂ R xs ys) : ∀ x ∈ xs, ∃ y ∈ ys, R x y := by
  induction h with
  | nil => simp
  | cons hxy _ ih =>
    refine List.forall_mem_cons.2 ⟨⟨_, List.mem_cons_self, hxy⟩, fun x hx => ?_⟩
    obtain ⟨y, hy, hR⟩ := ih x hx
    exact ⟨y, List.mem_cons_of_mem _ hy, hR⟩

theorem exists_of_mem_right (h : List.Forall₂ R xs ys) : ∀ y ∈ ys, ∃ x ∈ xs, R x y :=
  exists_of_mem_left h.flip

end

/-! ## Members -/

theorem field_eq_ok {label name : Str} {members : Members} {x : Json} :
    field label members name = .ok x ↔ members.lookup name = some x := by
  unfold field
  cases members.lookup name <;> simp

theorem asString_eq_ok {label name s : Str} {x : Json} : asString label name x = .ok s ↔ x = .string s := by
  cases x <;> simp [asString]

theorem stringField_eq_ok {label name s : Str} {members : Members} :
    stringField label members name = .ok s ↔ members.lookup name = some (.string s) := by
  simp [stringField, Outcome.bind_eq_ok, field_eq_ok, asString_eq_ok]

theorem listField_eq_ok {label name : Str} {members : Members} {xs : List Json} :
    listField label members name = .ok xs ↔ members.lookup name = some (.list xs) := by
  simp [listField, Outcome.bind_eq_ok, field_eq_ok, asList_eq_ok]

/-! ## Loops -/

theorem parseItems_nil {α : Type} (parse : Json → Outcome Validation α) : parseItems parse [] = .ok [] := rfl

theorem parseInvoke_nil (label : Str) : parseInvoke label [] = .ok [] := rfl

theorem parseItems_eq_ok {α : Type} {parse : Json → Outcome Validation α} {xs : List Json} {ds : List α} :
    parseItems parse xs = .ok ds ↔ List.Forall₂ (fun x d => parse x = .ok d) xs ds := by
  induction xs generalizing ds with
  | nil =>
    rw [parseItems, List.forall₂_nil_left_iff, Outcome.ok.injEq, eq_comm]
  | cons x xs ih =>
    simp only [parseItems, Outcome.bind_eq_ok, Outcome.pure_eq, Outcome.ok.injEq, ih, List.forall₂_cons_left_iff]
    constructor
    · rintro ⟨d, hd, ds', hds', rfl⟩
      exact ⟨d, ds', hd, hds', rfl⟩
    · rintro ⟨d, ds', hd, hds', rfl⟩
      exact ⟨d, hd, ds', hds', rfl⟩

/-- The declaration of an `invoke` entry: its target, under the name of the function with underscores. -/
def DeclaresInvoke (x : Json) (d : InvokeDecl) : Prop :=
  ∃ s, x = .string s ∧ FunctionRef.ofString s = .ok d.target ∧ d.binding.toStr = invokeBinding d.target.name

theorem parseInvoke_eq_ok {label : Str} {xs : List Json} {ds : List InvokeDecl} :
    parseInvoke label xs = .ok ds ↔ List.Forall₂ DeclaresInvoke xs ds := by
  induction xs generalizing ds with
  | nil =>
    rw [parseInvoke, List.forall₂_nil_left_iff, Outcome.ok.injEq, eq_comm]
  | cons x xs ih =>
    rw [List.forall₂_cons_left_iff]
    cases x with
    | string s =>
      simp only [parseInvoke, Outcome.bind_eq_ok, Outcome.pure_eq, Outcome.ok.injEq, ih, BindingName.ofStringExn,
        Checked.ofStringExn_eq_ok]
      constructor
      · rintro ⟨target, htarget, binding, hbinding, ds', hds', rfl⟩
        exact ⟨⟨binding, target⟩, ds', ⟨s, rfl, htarget, hbinding⟩, hds', rfl⟩
      · rintro ⟨⟨binding, target⟩, ds', ⟨s', hs', htarget, hbinding⟩, hds', rfl⟩
        cases hs'
        exact ⟨target, htarget, binding, hbinding, ds', hds', rfl⟩
    | _ =>
      refine iff_of_false (by simp [parseInvoke]) ?_
      rintro ⟨d, ds', ⟨s, hs, -⟩, -⟩
      cases hs

/-- An entry is declared when it is a function reference whose name does not start with a digit. -/
theorem exists_declaresInvoke {x : Json} :
    (∃ d, DeclaresInvoke x d) ↔ ∃ s, x = .string s ∧ Invokable s false := by
  constructor
  · rintro ⟨d, s, rfl, htarget, hbinding⟩
    refine ⟨s, rfl, d.target, htarget, (invokeBinding_returns (ε := Validation) d.target.name).1 ?_⟩
    rw [BindingName.ofStringExn, Checked.ofStringExn_returns]
    exact ⟨d.binding, hbinding⟩
  · rintro ⟨s, rfl, r, hr, hdigit⟩
    have hreturns := (invokeBinding_returns (ε := Validation) r.name).2 hdigit
    rw [BindingName.ofStringExn, Checked.ofStringExn_returns] at hreturns
    obtain ⟨binding, hbinding⟩ := hreturns
    exact ⟨⟨binding, r⟩, s, rfl, hr, hbinding⟩

/-! ## Groups -/

/-- The items of a group of capabilities, unless it is no array. -/
def group (members : Members) (name : Str) : Option (List Json) :=
  match members.lookup name with
  | none => some []
  | some (.list xs) => some xs
  | some _ => none

theorem optionalItems_eq_ok {α : Type} {label name : Str} {members : Members}
    {items : List Json → Outcome Validation (List α)} (hnil : items [] = .ok []) {ds : List α} :
    optionalItems label members name items = .ok ds ↔ ∃ xs, group members name = some xs ∧ items xs = .ok ds := by
  unfold optionalItems group
  cases members.lookup name with
  | none => simp [hnil]
  | some j => cases j <;> simp [asList]

/-- What `parse_capabilities` makes of the members of a capability object. -/
structure Declares (members : Members) (d : Declarations) : Prop where
  unique : checkNoDuplicates (str "capabilities") members = .ok ()
  known : checkKnown (str "capabilities") members
    [str "kv", str "http", str "clock", str "random", str "logs", str "invoke"] = .ok ()
  kv : ∃ xs, group members (str "kv") = some xs ∧
    List.Forall₂ (fun x k => parseKv (str "capabilities") x = .ok k) xs d.kv
  http : ∃ xs, group members (str "http") = some xs ∧
    List.Forall₂ (fun x h => parseHttp (str "capabilities") x = .ok h) xs d.http
  clock : parseClock (str "capabilities") members = .ok d.clock
  random : parseRandom (str "capabilities") members = .ok d.random
  logs : parseLogs (str "capabilities") members = .ok d.logs
  invoke : ∃ xs, group members (str "invoke") = some xs ∧ List.Forall₂ DeclaresInvoke xs d.invoke

theorem parseCapabilities_eq_ok {c : Json} {d : Declarations} :
    parseCapabilities c = .ok d ↔ ∃ members, c = .assoc members ∧ Declares members d := by
  constructor
  · intro h
    simp only [parseCapabilities, Outcome.bind_eq_ok, asAssoc_eq_ok, Outcome.letIn_eq_ok, Outcome.pure_eq,
      Outcome.ok.injEq] at h
    obtain ⟨members, rfl, _, hunique, _, hknown, -, -, -, -, -, -, kv, hkv, http, hhttp, clock, hclock, random, hrandom,
      logs, hlogs, invoke, hinvoke, rfl⟩ := h
    obtain ⟨kvs, hkvs, hkv⟩ := (optionalItems_eq_ok (parseItems_nil _)).1 hkv
    obtain ⟨https, hhttps, hhttp⟩ := (optionalItems_eq_ok (parseItems_nil _)).1 hhttp
    obtain ⟨invokes, hinvokes, hinvoke⟩ := (optionalItems_eq_ok (parseInvoke_nil _)).1 hinvoke
    exact ⟨members, rfl, hunique, hknown, ⟨kvs, hkvs, parseItems_eq_ok.1 hkv⟩, ⟨https, hhttps, parseItems_eq_ok.1 hhttp⟩,
      hclock, hrandom, hlogs, invokes, hinvokes, parseInvoke_eq_ok.1 hinvoke⟩
  · rintro ⟨members, rfl, h⟩
    obtain ⟨kvs, hkvs, hkv⟩ := h.kv
    obtain ⟨https, hhttps, hhttp⟩ := h.http
    obtain ⟨invokes, hinvokes, hinvoke⟩ := h.invoke
    have ekv : optionalItems (str "capabilities") members (str "kv") (parseItems (parseKv (str "capabilities"))) =
        .ok d.kv := (optionalItems_eq_ok (parseItems_nil _)).2 ⟨kvs, hkvs, parseItems_eq_ok.2 hkv⟩
    have ehttp : optionalItems (str "capabilities") members (str "http") (parseItems (parseHttp (str "capabilities"))) =
        .ok d.http := (optionalItems_eq_ok (parseItems_nil _)).2 ⟨https, hhttps, parseItems_eq_ok.2 hhttp⟩
    have einvoke : optionalItems (str "capabilities") members (str "invoke") (parseInvoke (str "capabilities")) =
        .ok d.invoke := (optionalItems_eq_ok (parseInvoke_nil _)).2 ⟨invokes, hinvokes, parseInvoke_eq_ok.2 hinvoke⟩
    simp only [parseCapabilities, asAssoc, Outcome.ok_bind, h.unique, h.known, ekv, ehttp, h.clock, h.random, h.logs,
      einvoke, Outcome.letIn_of_returns (Outcome.returns_ok _), Outcome.pure_eq]

/-! ## The manifest -/

/-- **Which trees `parse` accepts with these capabilities**: `capabilities` is reached, and it and `retry` are accepted. -/
theorem exists_parse_eq_ok {j : Json} {d : Declarations} : (∃ m, parse j = .ok m ∧ m.capabilities = d) ↔
    ∃ members c, j = .assoc members ∧ ReachesCapabilities members c ∧ parseCapabilities c = .ok d ∧
      ∃ r v, field (str "manifest") members (str "retry") = .ok r ∧ parseRetry r = .ok v := by
  constructor
  · rintro ⟨m, h, rfl⟩
    simp only [parse, Outcome.bind_eq_ok, asAssoc_eq_ok, ensure_eq_ok, beq_iff_eq, Outcome.pure_eq,
      Outcome.ok.injEq] at h
    obtain ⟨members, rfl, _, hu, _, hk, sv, hsv, _, rfl, n, hn, name, hname, e, he, p, hp, x, hx, _, hxv, rt, hrt, _, rfl,
      i, hi, iv, hiv, o, ho, ov, hov, l, hl, lv, hlv, c, hc, d, hd, r, hr, v, hv, rfl⟩ := h
    exact ⟨members, c, rfl, ⟨⟨e, p, ⟨hu, hk, hsv, ⟨n, name, hn, hname⟩, he⟩, hp⟩, ⟨x, hx, hxv⟩, hrt, ⟨i, iv, hi, hiv⟩,
      ⟨o, ov, ho, hov⟩, ⟨l, lv, hl, hlv⟩, hc⟩, hd, r, v, hr, hv⟩
  · rintro ⟨members, c, rfl, hreach, hd, r, v, hr, hv⟩
    obtain ⟨e, p, hre, hp⟩ := hreach.entrypoint
    obtain ⟨n, name, hn, hname⟩ := hre.name
    obtain ⟨x, hx, hxv⟩ := hreach.exportName
    obtain ⟨i, iv, hi, hiv⟩ := hreach.input
    obtain ⟨o, ov, ho, hov⟩ := hreach.output
    obtain ⟨l, lv, hl, hlv⟩ := hreach.limits
    refine ⟨⟨1, name, p, x, str "quickjs-2026-06-04", iv, ov, lv, d, v⟩, ?_, rfl⟩
    simp only [parse, Outcome.bind_eq_ok, asAssoc_eq_ok, ensure_eq_ok, beq_iff_eq, Outcome.pure_eq]
    exact ⟨members, rfl, (), hre.unique, (), hre.known, 1, hre.version, (), rfl, n, hn, name, hname, e, hre.entrypoint, p, hp,
      x, hx, (), hxv, _, hreach.runtime, (), rfl, i, hi, iv, hiv, o, ho, ov, hov, l, hl, lv, hlv, c, hreach.capabilities,
      d, hd, r, hr, v, hv, rfl⟩

end Manifest
end MirageLambda
