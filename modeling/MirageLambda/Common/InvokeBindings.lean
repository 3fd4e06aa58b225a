import MirageLambda.Common.ManifestAccepts

/-!
# The bindings of `invoke` entries (common/manifest.ml:224-245)

A tenant reaches a function it may invoke as `env.functions.<binding>`, and the binding is derived from the function
name alone: hyphens become underscores. The comment in the loop says that the result is a valid identifier. It is
not when the name starts with a digit, and then `of_string_exn` raises; and two references to one function under
different qualifiers get one binding.

`invokes_declared_iff` says that nothing else goes wrong: the rewriting of slugs is injective (`invokeBinding_injective`).
-/

namespace MirageLambda
open OCaml

namespace Manifest

/-- Slugs have no underscores, so the rewriting can be undone. -/
theorem invokeBinding_injective : Function.Injective invokeBinding := by
  have hundo : ∀ c, (isAlnum c || isHyphen c) = true →
      (fun c => if c = chr '_' then chr '-' else c) (if c = chr '-' then chr '_' else c) = c :=
    forall_byte (by decide +kernel)
  have hleft : ∀ name : FunctionName,
      (invokeBinding name).map (fun c => if c = chr '_' then chr '-' else c) = name.toStr := by
    intro name
    obtain ⟨-, -, -, -, hall⟩ := name.isSlug
    rw [invokeBinding, List.map_map]
    exact (List.map_congr_left fun c hc => hundo c (hall c hc)).trans (List.map_id' _)
  intro a b hab
  apply Checked.ext
  rw [← hleft a, ← hleft b, hab]

/-- The object `{"invoke": […]}`. -/
def invokeObject (entries : List Str) : Json := .assoc [(str "invoke", .list (entries.map .string))]

/-- A declaration for each entry in order, and different targets under different bindings. -/
structure InvokesDeclared (entries : List Str) (d : Declarations) : Prop where
  each : List.Forall₂ (fun s i => FunctionRef.ofString s = .ok i.target) entries d.invoke
  separate : ∀ a ∈ d.invoke, ∀ b ∈ d.invoke, a.target ≠ b.target → a.binding ≠ b.binding

theorem lookup_invoke (x : Json) : [(str "invoke", x)].lookup (str "invoke") = some x := List.lookup_cons_self

theorem lookup_other {name : Str} (hname : name ≠ str "invoke") (x : Json) :
    [(str "invoke", x)].lookup name = none := by
  rw [List.lookup_cons, beq_eq_false_iff_ne.2 hname]
  rfl

theorem parseCapabilities_invokeObject {entries : List Str} {d : Declarations} :
    parseCapabilities (invokeObject entries) = .ok d ↔
      d.kv = [] ∧ d.http = [] ∧ d.clock = .none ∧ d.random = .none ∧ d.logs = false ∧
        List.Forall₂ (fun s i => DeclaresInvoke (.string s) i) entries d.invoke := by
  have hinvoke : group [(str "invoke", .list (entries.map .string))] (str "invoke") = some (entries.map .string) := by
    rw [group, lookup_invoke]
  have hother : ∀ {name : Str}, name ≠ str "invoke" →
      group [(str "invoke", .list (entries.map .string))] name = some [] := by
    intro name hname
    rw [group, lookup_other hname]
  have hkvs : group [(str "invoke", .list (entries.map .string))] (str "kv") = some [] := hother (by decide)
  have hhttps : group [(str "invoke", .list (entries.map .string))] (str "http") = some [] := hother (by decide)
  have hnoClock : parseClock (str "capabilities") [(str "invoke", .list (entries.map .string))] = .ok .none := by
    rw [parseClock, lookup_other (by decide)]
  have hnoRandom : parseRandom (str "capabilities") [(str "invoke", .list (entries.map .string))] = .ok .none := by
    rw [parseRandom, lookup_other (by decide)]
  have hnoLogs : parseLogs (str "capabilities") [(str "invoke", .list (entries.map .string))] = .ok false := by
    rw [parseLogs, lookup_other (by decide)]
  rw [parseCapabilities_eq_ok]
  constructor
  · rintro ⟨members, hobj, h⟩
    obtain rfl := Json.assoc.inj hobj
    obtain ⟨kvs, hkvs', hkv⟩ := h.kv
    obtain ⟨https, hhttps', hhttp⟩ := h.http
    obtain ⟨invokes, hinvokes, hdeclared⟩ := h.invoke
    have hclock := h.clock
    have hrandom := h.random
    have hlogs := h.logs
    rw [hkvs, Option.some.injEq] at hkvs'
    rw [hhttps, Option.some.injEq] at hhttps'
    rw [hinvoke, Option.some.injEq] at hinvokes
    subst hkvs' hhttps' hinvokes
    rw [hnoClock, Outcome.ok.injEq] at hclock
    rw [hnoRandom, Outcome.ok.injEq] at hrandom
    rw [hnoLogs, Outcome.ok.injEq] at hlogs
    exact ⟨List.forall₂_nil_left_iff.1 hkv, List.forall₂_nil_left_iff.1 hhttp, hclock.symm, hrandom.symm, hlogs.symm,
      List.forall₂_map_left_iff.1 hdeclared⟩
  · rintro ⟨hkv, hhttp, hclock, hrandom, hlogs, hdeclared⟩
    refine ⟨_, rfl, ?_⟩
    exact
      { unique := by simp [checkNoDuplicates, firstDuplicate]
        known := by simp [checkKnown]
        kv := ⟨[], hkvs, by rw [hkv]; exact List.Forall₂.nil⟩
        http := ⟨[], hhttps, by rw [hhttp]; exact List.Forall₂.nil⟩
        clock := by rw [hnoClock, hclock]
        random := by rw [hnoRandom, hrandom]
        logs := by rw [hnoLogs, hlogs]
        invoke := ⟨_, hinvoke, List.forall₂_map_left_iff.2 hdeclared⟩ }

/-- No function name starts with a digit. -/
def NoLeadingDigit (entries : List Str) : Prop :=
  ∀ s ∈ entries, ∀ r, FunctionRef.ofString s = .ok r → isDigit (byteAt r.name.toStr 0) = false

/-- A function is referred to under one qualifier only. -/
def OneQualifier (entries : List Str) : Prop :=
  ∀ s ∈ entries, ∀ s' ∈ entries, ∀ r r', FunctionRef.ofString s = .ok r → FunctionRef.ofString s' = .ok r' →
    r.name = r'.name → r.qualifier = r'.qualifier

/-- What is declared has a declaration for each reference. -/
theorem InvokesDeclared.conditions {entries : List Str} {d : Declarations}
    (hd : parseCapabilities (invokeObject entries) = .ok d) (h : InvokesDeclared entries d) :
    NoLeadingDigit entries ∧ OneQualifier entries := by
  obtain ⟨-, -, -, -, -, hdeclared⟩ := parseCapabilities_invokeObject.1 hd
  have hdecl : ∀ s ∈ entries, ∀ r, FunctionRef.ofString s = .ok r →
      ∃ i ∈ d.invoke, i.target = r ∧ DeclaresInvoke (.string s) i := by
    intro s hs r hr
    obtain ⟨i, hi, s', hs', htarget, hbinding⟩ := exists_of_mem_left hdeclared s hs
    cases hs'
    have hsame := htarget
    rw [hr, Outcome.ok.injEq] at hsame
    exact ⟨i, hi, hsame.symm, s, rfl, htarget, hbinding⟩
  refine ⟨fun s hs r hr => ?_, fun s hs s' hs' r r' hr hr' hname => ?_⟩
  · obtain ⟨i, -, -, hdeclares⟩ := hdecl s hs r hr
    obtain ⟨_, hs', r', hr', hdigit⟩ := exists_declaresInvoke.1 ⟨i, hdeclares⟩
    cases hs'
    rw [hr, Outcome.ok.injEq] at hr'
    rw [hr']
    exact hdigit
  · obtain ⟨i, hi, rfl, _, -, -, hbinding⟩ := hdecl s hs r hr
    obtain ⟨i', hi', rfl, _, -, -, hbinding'⟩ := hdecl s' hs' r' hr'
    by_contra hqualifier
    have hne : i.target ≠ i'.target := fun h => hqualifier (by rw [h])
    refine h.separate i hi i' hi' hne (Checked.ext ?_)
    rw [hbinding, hbinding', hname]

/-- **Invoke capabilities are well formed**, for references that `Function_ref.of_string` accepts, exactly when no function
name starts with a digit and no function is referred to under two qualifiers. -/
theorem invokes_declared_iff (entries : List Str) (hrefs : ∀ s ∈ entries, ∃ r, FunctionRef.ofString s = .ok r) :
    (∃ d, parseCapabilities (invokeObject entries) = .ok d ∧ InvokesDeclared entries d) ↔
      NoLeadingDigit entries ∧ OneQualifier entries := by
  constructor
  · rintro ⟨d, hd, h⟩
    exact h.conditions hd
  · rintro ⟨hdigit, hqualifier⟩
    have heach : ∀ s ∈ entries, ∃ i, DeclaresInvoke (.string s) i := by
      intro s hs
      obtain ⟨r, hr⟩ := hrefs s hs
      exact exists_declaresInvoke.2 ⟨s, rfl, r, hr, hdigit s hs r hr⟩
    obtain ⟨invoke, hinvoke⟩ := exists_forall₂.2 heach
    refine ⟨⟨[], [], .none, .none, false, invoke⟩,
      parseCapabilities_invokeObject.2 ⟨rfl, rfl, rfl, rfl, rfl, hinvoke⟩, ?_, ?_⟩
    · refine hinvoke.imp fun s i h => ?_
      obtain ⟨_, hs, htarget, -⟩ := h
      cases hs
      exact htarget
    · intro a ha b hb hne hbinding
      obtain ⟨s, hs, _, hs', ha', habinding⟩ := exists_of_mem_right hinvoke a ha
      cases hs'
      obtain ⟨t, ht, _, ht', hb', hbbinding⟩ := exists_of_mem_right hinvoke b hb
      cases ht'
      have hname : a.target.name = b.target.name :=
        invokeBinding_injective (by rw [← habinding, ← hbbinding, hbinding])
      have hqual := hqualifier s hs t ht _ _ ha' hb' hname
      refine hne ?_
      rw [show a.target = ⟨a.target.name, a.target.qualifier⟩ from rfl, hname, hqual]

/-- `["resize-image@prod", "a--b@live"]` is declared, under the bindings `resize_image` and `a__b`. -/
theorem invokes_declared_resize :
    ∃ d, parseCapabilities (invokeObject [str "resize-image@prod", str "a--b@live"]) = .ok d ∧
      InvokesDeclared [str "resize-image@prod", str "a--b@live"] d := by
  have hresize : FunctionRef.ofString (str "resize-image@prod") =
      .ok ⟨⟨str "resize-image", by decide⟩, ⟨str "prod", by decide⟩⟩ := by decide +kernel
  have hdashes : FunctionRef.ofString (str "a--b@live") =
      .ok ⟨⟨str "a--b", by decide⟩, ⟨str "live", by decide⟩⟩ := by decide +kernel
  have href : ∀ s ∈ [str "resize-image@prod", str "a--b@live"], ∀ r, FunctionRef.ofString s = .ok r →
      r = ⟨⟨str "resize-image", by decide⟩, ⟨str "prod", by decide⟩⟩ ∨
        r = ⟨⟨str "a--b", by decide⟩, ⟨str "live", by decide⟩⟩ := by
    simp only [List.forall_mem_cons, hresize, hdashes, Outcome.ok.injEq]
    exact ⟨fun r hr => .inl hr.symm, fun r hr => .inr hr.symm, by simp⟩
  refine (invokes_declared_iff [str "resize-image@prod", str "a--b@live"] ?_).2 ⟨?_, ?_⟩
  · exact List.forall_mem_cons.2 ⟨⟨_, hresize⟩, List.forall_mem_cons.2 ⟨⟨_, hdashes⟩, by simp⟩⟩
  · intro s hs r hr
    obtain rfl | rfl := href s hs r hr
    · decide
    · decide
  · intro s hs s' hs' r r' hr hr' hname
    obtain rfl | rfl := href s hs r hr
    · obtain rfl | rfl := href s' hs' r' hr'
      · rfl
      · exact absurd hname (by decide)
    · obtain rfl | rfl := href s' hs' r' hr'
      · exact absurd hname (by decide)
      · rfl

/-- A function whose name starts with a digit makes the parser raise, and `f@prod` and `f@live` are not kept apart. -/
theorem digit_raises_and_qualifiers_collide :
    (∃ r, FunctionRef.ofString (str "1a@prod") = .ok r) ∧
      (parseCapabilities (invokeObject [str "1a@prod"])).Raises ∧
      (∃ r, FunctionRef.ofString (str "f@prod") = .ok r) ∧ (∃ r, FunctionRef.ofString (str "f@live") = .ok r) ∧
      ¬ ∃ d, parseCapabilities (invokeObject [str "f@prod", str "f@live"]) = .ok d ∧
        InvokesDeclared [str "f@prod", str "f@live"] d := by
  have hdigit : FunctionRef.ofString (str "1a@prod") =
      .ok ⟨⟨str "1a", by decide⟩, ⟨str "prod", by decide⟩⟩ := by decide +kernel
  have hprod : FunctionRef.ofString (str "f@prod") =
      .ok ⟨⟨str "f", by decide⟩, ⟨str "prod", by decide⟩⟩ := by decide +kernel
  have hlive : FunctionRef.ofString (str "f@live") =
      .ok ⟨⟨str "f", by decide⟩, ⟨str "live", by decide⟩⟩ := by decide +kernel
  refine ⟨⟨_, hdigit⟩, ?_, ⟨_, hprod⟩, ⟨_, hlive⟩, ?_⟩
  · rw [parseCapabilities_raises_iff]
    refine ⟨_, _, rfl, by simp [checkNoDuplicates, firstDuplicate], by simp [checkKnown], lookup_invoke _, ?_⟩
    exact ⟨[], str "1a@prod", [], rfl, by simp, _, hdigit, by decide⟩
  · rintro ⟨d, hd, h⟩
    have hqualifier := (h.conditions hd).2 _ List.mem_cons_self _ (List.mem_cons_of_mem _ List.mem_cons_self) _ _
      hprod hlive rfl
    revert hqualifier
    decide

end Manifest
end MirageLambda
