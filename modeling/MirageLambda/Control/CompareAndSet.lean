import MirageLambda.Control.Aliases

/-!
# Moving an alias with a precondition

`move_alias` takes an optional precondition, the revision that the caller has seen. Calls do not overlap, so an
interleaving of any number of clients is a list of calls, here from any state of the registry.

A call with a precondition is refused when the alias is there and points elsewhere. When there is no alias the test
falls through to the branch of the unconditional move: `compareAndSet_iff` says that this is the one way to get past it.
-/

namespace MirageLambda
namespace Registry
open OCaml

/-- The calls of an interleaving, one after the other. -/
def runFrom (Y : Yojson) (s : Registry × FileSystem) (ops : List Op) : Registry × FileSystem := ops.foldl (step Y) s

theorem runFrom_append (Y : Yojson) (s : Registry × FileSystem) (ops ops' : List Op) :
    runFrom Y s (ops ++ ops') = runFrom Y (runFrom Y s ops) ops' :=
  List.foldl_append

/-- **Compare-and-set prevents lost updates** in the interleaving `ops` from `s`. -/
structure CompareAndSet (Y : Yojson) (s : Registry × FileSystem) (ops : List Op) : Prop where
  /-- A call that succeeds found the alias at the revision it expects. -/
  expected : ∀ ran tenant fn al rev e, ran ++ [.move tenant fn al rev (some e)] <+: ops →
    result Y (runFrom Y s ran) (.move tenant fn al rev (some e)) = .ok () →
    (runFrom Y s ran).1.aliases.findOpt (tenant, fn, al) = some e
  /-- A call that is refused changes no table. -/
  refused : ∀ ran tenant fn al rev e error, ran ++ [.move tenant fn al rev (some e)] <+: ops →
    result Y (runFrom Y s ran) (.move tenant fn al rev (some e)) = .error error →
    (step Y (runFrom Y s ran) (.move tenant fn al rev (some e))).1 = (runFrom Y s ran).1
  /-- Of two calls that succeed with one expectation, the alias was back at it between them. -/
  once : ∀ ran between tenant fn al rev rev' e, rev ≠ e → rev' ≠ e →
    ran ++ .move tenant fn al rev (some e) :: between ++ [.move tenant fn al rev' (some e)] <+: ops →
    result Y (runFrom Y s ran) (.move tenant fn al rev (some e)) = .ok () →
    result Y (runFrom Y s (ran ++ .move tenant fn al rev (some e) :: between)) (.move tenant fn al rev' (some e)) =
      .ok () →
    ∃ ran', ran' <+: between ∧
      (runFrom Y s (ran ++ .move tenant fn al rev (some e) :: ran')).1.aliases.findOpt (tenant, fn, al) = some e

/-- The call has no precondition, or its alias is there. (Without the alias the call only fails to succeed when the
checkpoint cannot be written and the exception leaves it.) -/
def Op.FindsAlias (Y : Yojson) (s : Registry × FileSystem) : Op → Prop
  | .publish _ _ _ => True
  | .move _ _ _ _ none => True
  | .move tenant fn al rev (some e) => s.1.aliases.findOpt (tenant, fn, al) = none →
    (((Op.move tenant fn al rev (some e)).apply s.1).checkpointSave Y s.2).1.Raises

/-! ## One call -/

theorem preconditionFails_some {current : Option RevisionId} {e : RevisionId} :
    preconditionFails current (some e) = false ↔ current = none ∨ current = some e := by
  cases current with
  | none => simp [preconditionFails]
  | some c => simp [preconditionFails]

/-- A save ends with `Ok` or with an exception. -/
theorem checkpointSave_ok_or_raises (Y : Yojson) (t : Registry) (fs : FileSystem) :
    (t.checkpointSave Y fs).1 = .ok () ∨ (t.checkpointSave Y fs).1.Raises := by
  cases hpath : t.checkpointPath with
  | none =>
    refine Or.inl ?_
    rw [checkpointSave, hpath]
  | some path =>
    obtain ⟨x, heq⟩ | heq := checkpointSave_cases Y hpath fs
    · exact Or.inr ⟨x, by rw [heq]⟩
    · exact Or.inl (by rw [heq])

/-- **What a move with a precondition does**: without the alias, or with the expected one, it sets the alias;
otherwise it is refused and changes nothing. -/
theorem move_cases (Y : Yojson) (s : Registry × FileSystem) (tenant : TenantId) (fn : FunctionName) (al : Alias)
    (rev e : RevisionId) :
    (s.1.aliases.findOpt (tenant, fn, al) ≠ none ∧
      ∃ error, result Y s (.move tenant fn al rev (some e)) = .error error ∧
        step Y s (.move tenant fn al rev (some e)) = s) ∨
    ((s.1.aliases.findOpt (tenant, fn, al) = none ∨ s.1.aliases.findOpt (tenant, fn, al) = some e) ∧
      result Y s (.move tenant fn al rev (some e)) =
        (((Op.move tenant fn al rev (some e)).apply s.1).checkpointSave Y s.2).1 ∧
      (step Y s (.move tenant fn al rev (some e))).1.aliases.findOpt (tenant, fn, al) = some rev) := by
  obtain ⟨hfails, error, heq⟩ | ⟨hpasses, heq⟩ := s.1.moveAlias_cases Y s.2 tenant fn al rev (some e)
  · refine Or.inl ⟨fun hnone => ?_, error, by rw [result, heq], by rw [step, heq]⟩
    rw [hnone] at hfails
    cases hfails
  · refine Or.inr ⟨preconditionFails_some.1 hpasses, by rw [result, heq]; rfl, ?_⟩
    rw [step, heq, Hashtbl.findOpt_replace, if_pos rfl]

/-- An alias is never taken away. -/
theorem findOpt_aliases_isSome {Y : Yojson} {s : Registry × FileSystem} {k : TenantId × FunctionName × Alias}
    (h : s.1.aliases.findOpt k ≠ none) (op : Op) : (step Y s op).1.aliases.findOpt k ≠ none := by
  obtain ⟨-, -, heq⟩ | ⟨-, -, heq⟩ := step_cases Y s op
  · rw [heq]
    exact h
  · rw [heq]
    cases op with
    | publish tenant fn rev => exact h
    | move tenant fn al rev pre =>
      simp only [Op.apply, Hashtbl.findOpt_replace]
      split
      · exact Option.some_ne_none _
      · exact h

theorem findOpt_aliases_runFrom {Y : Yojson} {s : Registry × FileSystem} {k : TenantId × FunctionName × Alias}
    (h : s.1.aliases.findOpt k ≠ none) (ops : List Op) : (runFrom Y s ops).1.aliases.findOpt k ≠ none := by
  induction ops generalizing s with
  | nil => exact h
  | cons op ops ih => exact ih (findOpt_aliases_isSome h op)

/-! ## Interleavings -/

section
variable (Y : Yojson) (s : Registry × FileSystem)

theorem refused_unchanged {tenant : TenantId} {fn : FunctionName} {al : Alias} {rev e : RevisionId} {error : Error}
    (h : result Y s (.move tenant fn al rev (some e)) = .error error) :
    (step Y s (.move tenant fn al rev (some e))).1 = s.1 := by
  obtain ⟨-, -, -, hstep⟩ | ⟨-, hres, -⟩ := move_cases Y s tenant fn al rev e
  · rw [hstep]
  · rw [h] at hres
    obtain hok | ⟨x, hraised⟩ := checkpointSave_ok_or_raises Y ((Op.move tenant fn al rev (some e)).apply s.1) s.2
    · rw [hok] at hres
      cases hres
    · rw [hraised] at hres
      cases hres

/-- After one success the alias is there, so the next one found the expected revision. -/
theorem between_successes {between : List Op} {tenant : TenantId} {fn : FunctionName} {al : Alias}
    {rev rev' e : RevisionId} (h : result Y s (.move tenant fn al rev (some e)) = .ok ())
    (h' : result Y (runFrom Y s (.move tenant fn al rev (some e) :: between)) (.move tenant fn al rev' (some e)) =
      .ok ()) :
    (runFrom Y s (.move tenant fn al rev (some e) :: between)).1.aliases.findOpt (tenant, fn, al) = some e := by
  obtain ⟨-, error, hres, -⟩ | ⟨-, -, hset⟩ := move_cases Y s tenant fn al rev e
  · rw [h] at hres
    cases hres
  have hthere : (runFrom Y s (.move tenant fn al rev (some e) :: between)).1.aliases.findOpt (tenant, fn, al) ≠ none :=
    findOpt_aliases_runFrom (by rw [hset]; exact Option.some_ne_none _) between
  obtain ⟨-, error, hres, -⟩ | ⟨hfound, -, -⟩ := move_cases Y
    (runFrom Y s (.move tenant fn al rev (some e) :: between)) tenant fn al rev' e
  · rw [h'] at hres
    cases hres
  · exact hfound.resolve_left hthere

/-- **Compare-and-set holds in an interleaving exactly when every call with a precondition finds its alias.** -/
theorem compareAndSet_iff (ops : List Op) : CompareAndSet Y s ops ↔
    ∀ ran op, ran ++ [op] <+: ops → op.FindsAlias Y (runFrom Y s ran) := by
  constructor
  · intro h ran op hran
    rcases op with _ | ⟨tenant, fn, al, rev, _ | e⟩
    · exact trivial
    · exact trivial
    · intro hnone
      obtain ⟨hthere, -⟩ | ⟨-, hres, -⟩ := move_cases Y (runFrom Y s ran) tenant fn al rev e
      · exact absurd hnone hthere
      · refine (checkpointSave_ok_or_raises Y _ _).resolve_left fun hok => ?_
        have hfound := h.expected ran tenant fn al rev e hran (hres.trans hok)
        rw [hnone] at hfound
        cases hfound
  · intro h
    refine ⟨?_, ?_, ?_⟩
    · intro ran tenant fn al rev e hran hok
      obtain ⟨-, error, hres, -⟩ | ⟨hfound, hres, -⟩ := move_cases Y (runFrom Y s ran) tenant fn al rev e
      · rw [hok] at hres
        cases hres
      · refine hfound.resolve_left fun hnone => ?_
        obtain ⟨x, hraised⟩ := h ran _ hran hnone
        rw [hok, hraised] at hres
        cases hres
    · intro ran tenant fn al rev e error _ herr
      exact refused_unchanged Y _ herr
    · intro ran between tenant fn al rev rev' e _ _ _ hok hok'
      refine ⟨between, List.prefix_rfl, ?_⟩
      rw [runFrom_append] at hok' ⊢
      exact between_successes Y _ hok hok'

end

/-- In a new registry a call that expects a revision sets the alias that was never there. -/
theorem absent_alias_swapped (Y : Yojson) (fs : FileSystem) (tenant : TenantId) (fn : FunctionName) (al : Alias)
    (rev e : RevisionId) :
    result Y (make none, fs) (.move tenant fn al rev (some e)) = .ok () ∧
      (make none).aliases.findOpt (tenant, fn, al) = none :=
  ⟨rfl, rfl⟩

open MirageLambda.Bundle (sampleTenant sampleFunction sampleYojson)

theorem validateSlug_prod : validateSlug (str "alias") (str "prod") = .ok () := by decide

/-- An alias of the sample function. -/
def prodAlias : Alias := ⟨str "prod", validateSlug_prod⟩

/-- The first call on an alias succeeds whatever it expects. -/
theorem not_compareAndSet_absent :
    ¬ CompareAndSet sampleYojson (make none, ⟨fun _ => none⟩)
      [.move sampleTenant sampleFunction prodAlias (digestOf []) (some (digestOf [0]))] := by
  intro h
  have hfound := h.expected [] _ _ _ _ _ List.prefix_rfl
    (absent_alias_swapped sampleYojson ⟨fun _ => none⟩ _ _ _ _ _).1
  exact absurd ((absent_alias_swapped sampleYojson ⟨fun _ => none⟩ _ _ _ (digestOf []) (digestOf [0])).2.symm.trans
    hfound) (by simp)

end Registry
end MirageLambda
