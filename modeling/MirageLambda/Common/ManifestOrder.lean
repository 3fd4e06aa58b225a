import MirageLambda.Common.BundleRoundtrip
import MirageLambda.Common.CanonicalText

/-!
# The order of members in a manifest

The parsers look members up by name and take the first match. `check_no_duplicates` stands before every lookup, so
there is only one; a change of the order, in any object of the tree, then leaves every lookup with the same value or
with one that differs by the change. `Outcome.Respects` carries this through the chain of a parser, one rule for each
kind of step.
-/

namespace MirageLambda
open OCaml

namespace Json

/-- One object somewhere in the tree has its members reordered. -/
inductive Reorders : Json → Json → Prop where
  | here {xs ys : List (Str × Json)} : xs.Perm ys → Reorders (.assoc xs) (.assoc ys)
  | member {x y : Json} (k : Str) (l r : List (Str × Json)) :
    Reorders x y → Reorders (.assoc (l ++ (k, x) :: r)) (.assoc (l ++ (k, y) :: r))
  | element {x y : Json} (l r : List Json) : Reorders x y → Reorders (.list (l ++ x :: r)) (.list (l ++ y :: r))
  | component {x y : Json} (l r : List Json) : Reorders x y → Reorders (.tuple (l ++ x :: r)) (.tuple (l ++ y :: r))
  | argument {x y : Json} (name : Str) : Reorders x y → Reorders (.variant name (some x)) (.variant name (some y))

/-- The second tree is the first with object members reordered, at any depth. -/
def Reordered : Json → Json → Prop := Relation.ReflTransGen Reorders

end Json

namespace Manifest
open Json (Reorders)
open Outcome (Respects)

/-! ## Members -/

/-- Members with distinct names, before and after one change. -/
def MembersReorder (xs ys : Members) : Prop := (xs.map Prod.fst).Nodup ∧ Reorders (.assoc xs) (.assoc ys)

/-- Elements before and after one change inside of them. -/
def ItemsReorder (xs ys : List Json) : Prop := Reorders (.list xs) (.list ys)

theorem perm_keys {xs ys : Members} (h : Reorders (.assoc xs) (.assoc ys)) :
    (xs.map Prod.fst).Perm (ys.map Prod.fst) := by
  cases h with
  | here hp => exact hp.map Prod.fst
  | member k l r h => simp

theorem lookup_perm {xs ys : Members} (hp : xs.Perm ys) (hdistinct : (xs.map Prod.fst).Nodup) (name : Str) :
    xs.lookup name = ys.lookup name := by
  induction hp with
  | nil => rfl
  | cons x hp ih => rw [List.lookup_cons, List.lookup_cons, ih (List.nodup_cons.1 hdistinct).2]
  | swap x y l =>
    have hne : y.1 ≠ x.1 := fun heq => (List.nodup_cons.1 hdistinct).1 (heq ▸ List.mem_cons_self)
    rw [List.lookup_cons, List.lookup_cons, List.lookup_cons, List.lookup_cons]
    by_cases hx : name = x.1
    · simp only [hx, beq_self_eq_true, beq_eq_false_iff_ne.2 hne.symm]
    · simp only [beq_eq_false_iff_ne.2 hx]
  | trans hp _ ih₁ ih₂ => rw [ih₁ hdistinct, ih₂ ((hp.map Prod.fst).nodup_iff.1 hdistinct)]

/-- The same value under each name, or one that differs by the change. -/
theorem lookup_cases {xs ys : Members} (h : MembersReorder xs ys) (name : Str) :
    xs.lookup name = ys.lookup name ∨
      ∃ x y, xs.lookup name = some x ∧ ys.lookup name = some y ∧ Reorders x y := by
  obtain ⟨hdistinct, hstep⟩ := h
  cases hstep with
  | here hp => exact Or.inl (lookup_perm hp hdistinct name)
  | member k l r hstep =>
    rename_i x y
    rw [List.lookup_append, List.lookup_append, List.lookup_cons, List.lookup_cons]
    cases hl : l.lookup name with
    | some v => exact Or.inl rfl
    | none =>
      by_cases hk : name = k
      · simp only [hk, beq_self_eq_true, Option.none_or]
        exact Or.inr ⟨x, y, rfl, rfl, hstep⟩
      · simp only [beq_eq_false_iff_ne.2 hk]
        exact Or.inl trivial

/-! ## `check_no_duplicates` and `check_known` -/

theorem firstDuplicate_eq_none {seen : List Str} {xs : Members} :
    firstDuplicate seen xs = none ↔ (xs.map Prod.fst).Nodup ∧ ∀ k ∈ xs.map Prod.fst, k ∉ seen := by
  induction xs generalizing seen with
  | nil => simp [firstDuplicate]
  | cons x xs ih =>
    obtain ⟨k, v⟩ := x
    simp only [firstDuplicate, List.map_cons, List.nodup_cons, List.forall_mem_cons]
    by_cases hk : k ∈ seen
    · simp [hk]
    · simp only [hk, if_false, ih, List.mem_cons, not_or, not_false_eq_true, true_and]
      constructor
      · rintro ⟨hnodup, hall⟩
        exact ⟨⟨fun hmem => (hall k hmem).1 rfl, hnodup⟩, fun k' hk' => (hall k' hk').2⟩
      · rintro ⟨⟨hfresh, hnodup⟩, hall⟩
        exact ⟨hnodup, fun k' hk' => ⟨fun heq => hfresh (heq ▸ hk'), hall k' hk'⟩⟩

theorem checkNoDuplicates_eq_ok {label : Str} {xs : Members} :
    checkNoDuplicates label xs = .ok () ↔ (xs.map Prod.fst).Nodup := by
  have h := @firstDuplicate_eq_none [] xs
  simp only [List.not_mem_nil, not_false_eq_true, implies_true, and_true] at h
  rw [← h, checkNoDuplicates]
  cases firstDuplicate [] xs <;> simp

theorem checkKnown_eq_ok {label : Str} {xs : Members} {known : List Str} :
    checkKnown label xs known = .ok () ↔ ∀ k ∈ xs.map Prod.fst, k ∈ known := by
  have hfind : xs.find? (fun m => !(known.contains m.1)) = none ↔ ∀ k ∈ xs.map Prod.fst, k ∈ known := by
    simp
  rw [← hfind, checkKnown]
  cases xs.find? fun m => !(known.contains m.1) <;> simp

theorem respects_checkKnown (label : Str) (known : List Str) :
    Respects MembersReorder fun xs => checkKnown label xs known := by
  intro xs ys h u hok
  refine checkKnown_eq_ok.2 fun k hk => ?_
  exact checkKnown_eq_ok.1 hok k ((perm_keys h.2).mem_iff.2 hk)

/-- **An object parser**: once it has checked for duplicates, what it does with the members decides. -/
theorem respects_object {α : Type} {label name : Str} {k : Members → Outcome Validation α}
    (hk : Respects MembersReorder k) :
    Respects Reorders fun j => asAssoc label name j >>= fun assoc => checkNoDuplicates label assoc >>= fun _ =>
      k assoc := by
  intro j j' hstep a h
  obtain ⟨xs, hxs, hchecked⟩ := Outcome.bind_eq_ok.1 h
  obtain ⟨_, hdup, hmembers⟩ := Outcome.bind_eq_ok.1 hchecked
  obtain rfl := asAssoc_eq_ok.1 hxs
  have hdistinct := checkNoDuplicates_eq_ok.1 hdup
  obtain ⟨ys, rfl⟩ : ∃ ys, j' = .assoc ys := by
    cases hstep with
    | here hp => exact ⟨_, rfl⟩
    | member k l r h => exact ⟨_, rfl⟩
  have hdistinct' : (ys.map Prod.fst).Nodup := (perm_keys hstep).nodup_iff.1 hdistinct
  exact Outcome.bind_eq_ok.2 ⟨ys, rfl, Outcome.bind_eq_ok.2 ⟨(), checkNoDuplicates_eq_ok.2 hdistinct',
    hk ⟨hdistinct, hstep⟩ a hmembers⟩⟩

/-! ## Single members -/

theorem respects_field {α : Type} (label name : Str) {p : Json → Outcome Validation α} (hp : Respects Reorders p) :
    Respects MembersReorder fun xs => field label xs name >>= p := by
  intro xs ys h a ha
  obtain heq | ⟨x, y, hx, hy, hstep⟩ := lookup_cases h name
  · simp only [field, heq] at ha ⊢
    exact ha
  · simp only [field, hx, hy, Outcome.ok_bind] at ha ⊢
    exact hp hstep a ha

theorem respects_field_bind {α β : Type} {label name : Str} {p : Json → Outcome Validation α} (hp : Respects Reorders p)
    {k : α → Members → Outcome Validation β} (hk : ∀ a, Respects MembersReorder (k a)) :
    Respects MembersReorder fun xs => field label xs name >>= fun j => p j >>= fun a => k a xs := by
  have h := (respects_field label name hp).bind hk
  simpa only [Outcome.bind_bind] using h

/-- The members that are no objects and no arrays cannot change. -/
theorem respects_asString (label name : Str) : Respects Reorders (asString label name) := by
  intro x y hstep a ha
  cases hstep <;> cases ha

theorem respects_asInt (label name : Str) : Respects Reorders (asInt label name) := by
  intro x y hstep a ha
  cases hstep <;> cases ha

theorem respects_asBool (label name : Str) : Respects Reorders (asBool label name) := by
  intro x y hstep a ha
  cases hstep <;> cases ha

theorem respects_stringField (label name : Str) : Respects MembersReorder fun xs => stringField label xs name :=
  respects_field label name (respects_asString label name)

theorem respects_intField (label name : Str) : Respects MembersReorder fun xs => intField label xs name :=
  respects_field label name (respects_asInt label name)

/-! ## Arrays -/

theorem respects_asList {α : Type} {label name : Str} {items : List Json → Outcome Validation α}
    (hitems : Respects ItemsReorder items) : Respects Reorders fun j => asList label name j >>= items := by
  intro x y hstep a ha
  obtain ⟨xs, hxs, ha⟩ := Outcome.bind_eq_ok.1 ha
  obtain rfl := asList_eq_ok.1 hxs
  cases hstep with
  | element l r h => exact Outcome.bind_eq_ok.2 ⟨_, rfl, hitems (Reorders.element l r h) a ha⟩

/-- What a filter keeps of an array stays if it keeps nothing of an object or an array. -/
theorem filterMap_eq_of_reorder {β : Type} {g : Json → Option β} (hg : ∀ x y, Reorders x y → g x = g y)
    {xs ys : List Json} (h : ItemsReorder xs ys) : xs.filterMap g = ys.filterMap g := by
  cases h with
  | element l r h => rw [List.filterMap_append, List.filterMap_append, List.filterMap_cons, List.filterMap_cons, hg _ _ h]

/-- An array that is only looked at through what does not change. -/
theorem respects_listField {α : Type} {label name : Str} {k : List Json → Members → Outcome Validation α}
    (hsame : ∀ l l', ItemsReorder l l' → k l = k l') (hk : ∀ l, Respects MembersReorder (k l)) :
    Respects MembersReorder fun xs => listField label xs name >>= fun l => k l xs := by
  intro xs ys h a ha
  obtain ⟨l, hl, ha⟩ := Outcome.bind_eq_ok.1 ha
  obtain ⟨l', hl', heq⟩ : ∃ l', listField label ys name = .ok l' ∧ k l' = k l := by
    have hlist : Respects MembersReorder fun xs => field label xs name >>= fun j =>
        asList label name j >>= fun l => (pure (k l) : Outcome Validation _) := by
      refine respects_field label name (respects_asList fun l l' hstep f hf => ?_)
      simp only [hsame l l' hstep] at hf
      exact hf
    obtain ⟨j, hj, hl⟩ := Outcome.bind_eq_ok.1 hl
    have hys := hlist h (k l) (Outcome.bind_eq_ok.2 ⟨j, hj, Outcome.bind_eq_ok.2 ⟨l, hl, rfl⟩⟩)
    obtain ⟨j', hj', hys⟩ := Outcome.bind_eq_ok.1 hys
    obtain ⟨l', hl', heq⟩ := Outcome.bind_eq_ok.1 hys
    injection heq with heq
    exact ⟨l', Outcome.bind_eq_ok.2 ⟨j', hj', hl'⟩, heq⟩
  refine Outcome.bind_eq_ok.2 ⟨l', hl', ?_⟩
  rw [heq]
  exact hk l h a ha

theorem respects_parseItems {α : Type} {p : Json → Outcome Validation α} (hp : Respects Reorders p) :
    Respects ItemsReorder (parseItems p) := by
  intro xs ys h as has
  cases h with
  | element l r hstep =>
    induction l generalizing as with
    | nil =>
      obtain ⟨a, ha, has⟩ := Outcome.bind_eq_ok.1 has
      exact Outcome.bind_eq_ok.2 ⟨a, hp hstep a ha, has⟩
    | cons z l ih =>
      obtain ⟨a, ha, has⟩ := Outcome.bind_eq_ok.1 has
      obtain ⟨as', has', hcons⟩ := Outcome.bind_eq_ok.1 has
      exact Outcome.bind_eq_ok.2 ⟨a, ha, Outcome.bind_eq_ok.2 ⟨as', ih as' has', hcons⟩⟩

/-- An accepted `invoke` array has only strings, which cannot change. -/
theorem respects_parseInvoke (label : Str) : Respects ItemsReorder (parseInvoke label) := by
  intro xs ys h as has
  cases h with
  | element l r hstep =>
    induction l generalizing as with
    | nil => cases hstep <;> cases has
    | cons z l ih =>
      cases z with
      | string s =>
        obtain ⟨target, htarget, has⟩ := Outcome.bind_eq_ok.1 has
        obtain ⟨binding, hbinding, has⟩ := Outcome.bind_eq_ok.1 has
        obtain ⟨as', has', hcons⟩ := Outcome.bind_eq_ok.1 has
        exact Outcome.bind_eq_ok.2 ⟨target, htarget, Outcome.bind_eq_ok.2 ⟨binding, hbinding,
          Outcome.bind_eq_ok.2 ⟨as', ih as' has', hcons⟩⟩⟩
      | _ => cases has

/-! ## The parsers -/

theorem respects_parseIo (label : Str) : Respects Reorders (parseIo label) := by
  refine respects_object ((respects_checkKnown _ _).bind fun _ => ?_)
  refine (respects_stringField _ _).bind fun fmt => (respects_intField _ _).bind fun mb => ?_
  exact Outcome.respects_const _

theorem respects_parseLimits : Respects Reorders parseLimits := by
  refine respects_object ((respects_checkKnown _ _).bind fun _ => ?_)
  refine (respects_intField _ _).bind fun _ => (respects_intField _ _).bind fun _ => ?_
  refine (respects_intField _ _).bind fun _ => (respects_intField _ _).bind fun _ => ?_
  refine (respects_intField _ _).bind fun _ => (respects_intField _ _).bind fun _ => ?_
  refine (respects_intField _ _).bind fun _ => (respects_intField _ _).bind fun _ => ?_
  refine (respects_intField _ _).bind fun _ => (respects_intField _ _).bind fun _ => ?_
  exact (respects_intField _ _).bind fun _ => Outcome.respects_const _

theorem respects_parseKv (label : Str) : Respects Reorders (parseKv label) := by
  refine respects_object ((respects_checkKnown _ _).bind fun _ => ?_)
  refine (respects_stringField _ _).bind fun _ => Respects.const_bind fun _ => ?_
  refine (respects_stringField _ _).bind fun _ => Respects.const_bind fun _ => ?_
  refine (respects_stringField _ _).bind fun _ => Respects.const_bind fun _ => ?_
  exact (respects_stringField _ _).bind fun _ => Outcome.respects_const _

theorem respects_parseRetry : Respects Reorders parseRetry := by
  refine respects_object ((respects_checkKnown _ _).bind fun _ => ?_)
  exact (respects_stringField _ _).bind fun _ => Outcome.respects_const _

theorem respects_parseHttp (label : Str) : Respects Reorders (parseHttp label) := by
  have hstring : ∀ x y, Reorders x y → stringOf x = stringOf y := by
    intro x y h
    cases h <;> rfl
  have hint : ∀ x y, Reorders x y → intOf x = intOf y := by
    intro x y h
    cases h <;> rfl
  have hbind : ∀ {β : Type} (f : Str → Option β) x y, Reorders x y → (stringOf x).bind f = (stringOf y).bind f := by
    intro β f x y h
    rw [hstring x y h]
  refine respects_object ((respects_checkKnown _ _).bind fun _ => ?_)
  refine (respects_stringField _ _).bind fun _ => Respects.const_bind fun _ => ?_
  refine respects_listField (fun l l' h => by simp only [filterMap_eq_of_reorder (hbind _) h]) fun schemes => ?_
  refine respects_listField (fun l l' h => by simp only [filterMap_eq_of_reorder hstring h]) fun hosts => ?_
  refine respects_listField (fun l l' h => by simp only [filterMap_eq_of_reorder hint h]) fun ports => ?_
  refine respects_listField (fun l l' h => by simp only [filterMap_eq_of_reorder (hbind _) h]) fun methods => ?_
  exact (respects_intField _ _).bind fun _ => Outcome.respects_const _

theorem respects_optionalItems {α : Type} (label name : Str) {items : List Json → Outcome Validation (List α)}
    (hitems : Respects ItemsReorder items) :
    Respects MembersReorder fun xs => optionalItems label xs name items := by
  intro xs ys h a ha
  obtain heq | ⟨x, y, hx, hy, hstep⟩ := lookup_cases h name
  · simp only [optionalItems, heq] at ha ⊢
    exact ha
  · simp only [optionalItems, hx, hy] at ha ⊢
    exact respects_asList hitems hstep a ha

theorem respects_parseClock (label : Str) : Respects MembersReorder (parseClock label) := by
  intro xs ys h a ha
  obtain heq | ⟨x, y, hx, -, hstep⟩ := lookup_cases h (str "clock")
  · simp only [parseClock, heq] at ha ⊢
    exact ha
  · simp only [parseClock, hx] at ha
    cases hstep <;> cases ha

theorem respects_parseRandom (label : Str) : Respects MembersReorder (parseRandom label) := by
  intro xs ys h a ha
  obtain heq | ⟨x, y, hx, -, hstep⟩ := lookup_cases h (str "random")
  · simp only [parseRandom, heq] at ha ⊢
    exact ha
  · simp only [parseRandom, hx] at ha
    cases hstep <;> cases ha

theorem respects_parseLogs (label : Str) : Respects MembersReorder (parseLogs label) := by
  intro xs ys h a ha
  obtain heq | ⟨x, y, hx, hy, hstep⟩ := lookup_cases h (str "logs")
  · simp only [parseLogs, heq] at ha ⊢
    exact ha
  · simp only [parseLogs, hx, hy] at ha ⊢
    exact respects_asBool label _ hstep a ha

theorem respects_parseCapabilities : Respects Reorders parseCapabilities := by
  refine respects_object ((respects_checkKnown _ _).bind fun _ => ?_)
  intro xs ys h d hd
  simp only [Outcome.letIn_eq_ok, Outcome.bind_eq_ok] at hd ⊢
  obtain ⟨-, -, -, -, -, -, kv, hkv, http, hhttp, clock, hclock, random, hrandom, logs, hlogs, invoke, hinvoke, hall⟩ := hd
  have hkv' := respects_optionalItems _ _ (respects_parseItems (respects_parseKv _)) h kv hkv
  have hhttp' := respects_optionalItems _ _ (respects_parseItems (respects_parseHttp _)) h http hhttp
  have hclock' := respects_parseClock _ h clock hclock
  have hrandom' := respects_parseRandom _ h random hrandom
  have hlogs' := respects_parseLogs _ h logs hlogs
  have hinvoke' := respects_optionalItems _ _ (respects_parseInvoke _) h invoke hinvoke
  simp only [hkv', hhttp', hclock', hrandom', hlogs', hinvoke', Outcome.returns_ok, true_and]
  exact ⟨kv, rfl, http, rfl, clock, rfl, random, rfl, logs, rfl, invoke, rfl, hall⟩

theorem respects_parse : Respects Reorders parse := by
  refine respects_object ((respects_checkKnown _ _).bind fun _ => ?_)
  refine (respects_intField _ _).bind fun _ => Respects.const_bind fun _ => ?_
  refine (respects_stringField _ _).bind fun _ => Respects.const_bind fun _ => ?_
  refine (respects_stringField _ _).bind fun _ => Respects.const_bind fun _ => ?_
  refine (respects_stringField _ _).bind fun _ => Respects.const_bind fun _ => ?_
  refine (respects_stringField _ _).bind fun _ => Respects.const_bind fun _ => ?_
  refine respects_field_bind (respects_parseIo _) fun _ => respects_field_bind (respects_parseIo _) fun _ => ?_
  refine respects_field_bind respects_parseLimits fun _ => ?_
  refine respects_field_bind respects_parseCapabilities fun _ => ?_
  exact respects_field_bind respects_parseRetry fun _ => Outcome.respects_const _

/-- **The meaning of a manifest does not depend on the order of its members.** -/
theorem parse_reordered {j j' : Json} {m : Manifest} (h : parse j = .ok m) (hreordered : Json.Reordered j j') :
    parse j' = .ok m :=
  respects_parse.reflTransGen hreordered m h

theorem parse_reordered_sample : ∃ xs, CanonicalJson.jsonTree Bundle.sampleManifestJson.sort = .assoc xs ∧
    parse (.assoc xs.reverse) = .ok Bundle.sampleManifest :=
  ⟨_, rfl, parse_reordered Bundle.sample_manifest_parses (.single (.here (List.reverse_perm _).symm))⟩

/-! ## Validated as written, read back sorted -/

end Manifest
end MirageLambda
