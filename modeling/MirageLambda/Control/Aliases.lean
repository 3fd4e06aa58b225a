import MirageLambda.Common.BundleRoundtrip
import MirageLambda.Control.WorkerPool

/-!
# What an alias leads to

Runs of the registry: `publish_revision` and `move_alias` in any order from `make`. `resolve` looks the
digest branch up in `revisions`, under the tenant and the function; the alias branch returns what the alias
holds. So resolving is sound exactly as long as every alias holds a revision published for its own tenant
and function, and nothing in `move_alias` checks that: the run is sound when its callers do.
-/

namespace MirageLambda
namespace Registry
open OCaml

/-- A call that changes the registry. -/
inductive Op where
  | publish (tenant : TenantId) (functionName : FunctionName) (revision : Revision)
  | move (tenant : TenantId) (functionName : FunctionName) (alias_ : Alias) (revision : RevisionId)
      (precondition : Option RevisionId)
deriving DecidableEq

def step (Y : Yojson) (s : Registry × FileSystem) : Op → Registry × FileSystem
  | .publish tenant fn rev => (s.1.publishRevision Y s.2 tenant fn rev).2
  | .move tenant fn al rev pre => (s.1.moveAlias Y s.2 tenant fn al rev pre).2

/-- What the call returns. -/
def result (Y : Yojson) (s : Registry × FileSystem) : Op → Outcome Error Unit
  | .publish tenant fn rev => (s.1.publishRevision Y s.2 tenant fn rev).1
  | .move tenant fn al rev pre => (s.1.moveAlias Y s.2 tenant fn al rev pre).1

/-- The registry finds nothing against the call. -/
def Op.Allowed (t : Registry) : Op → Prop
  | .publish tenant fn rev => t.revisions.findOpt (tenant, fn, rev.digest) = none
  | .move tenant fn al _ pre => preconditionFails (t.aliases.findOpt (tenant, fn, al)) pre = false

instance (t : Registry) (op : Op) : Decidable (op.Allowed t) :=
  match op with
  | .publish tenant fn rev => inferInstanceAs (Decidable (t.revisions.findOpt (tenant, fn, rev.digest) = none))
  | .move tenant fn al _ pre =>
    inferInstanceAs (Decidable (preconditionFails (t.aliases.findOpt (tenant, fn, al)) pre = false))

/-- The tables after the call. -/
def Op.apply (t : Registry) : Op → Registry
  | .publish tenant fn rev => { t with revisions := t.revisions.add (tenant, fn, rev.digest) rev }
  | .move tenant fn al rev _ => { t with aliases := t.aliases.replace (tenant, fn, al) rev }

/-- A call is refused and changes nothing, or it changes the tables and then writes the checkpoint. -/
theorem step_cases (Y : Yojson) (s : Registry × FileSystem) (op : Op) :
    (∃ e, result Y s op = .error e ∧ step Y s op = s) ∨
      (op.Allowed s.1 ∧ result Y s op = ((op.apply s.1).checkpointSave Y s.2).1 ∧
        step Y s op = (op.apply s.1, ((op.apply s.1).checkpointSave Y s.2).2)) := by
  cases op with
  | publish tenant fn rev =>
    obtain ⟨e, heq⟩ | ⟨hnew, heq⟩ := s.1.publishRevision_cases Y s.2 tenant fn rev
    · exact Or.inl ⟨e, by rw [result, heq], by rw [step, heq]⟩
    · exact Or.inr ⟨hnew, by rw [result, heq]; rfl, by rw [step, heq]; rfl⟩
  | move tenant fn al rev pre =>
    obtain ⟨-, e, heq⟩ | ⟨hmade, heq⟩ := s.1.moveAlias_cases Y s.2 tenant fn al rev pre
    · exact Or.inl ⟨e, by rw [result, heq], by rw [step, heq]⟩
    · exact Or.inr ⟨hmade, by rw [result, heq]; rfl, by rw [step, heq]; rfl⟩

/-- The registry, with the file system its checkpoints go to, after the calls. -/
def run (Y : Yojson) (checkpointPath : Option Str) (fs : FileSystem) (ops : List Op) : Registry × FileSystem :=
  ops.foldl (step Y) (make checkpointPath, fs)

theorem run_concat (Y : Yojson) (path : Option Str) (fs : FileSystem) (ops : List Op) (op : Op) :
    run Y path fs (ops ++ [op]) = step Y (run Y path fs ops) op := by
  simp [run, List.foldl_append]

/-- Whatever resolves is published for the tenant and the function that asked. -/
def ResolvesPublished (t : Registry) : Prop :=
  ∀ tenant fn q d, t.resolve tenant fn q = .ok d → t.Published tenant fn d

/-- If the call is a move that will be made, its target is published where the alias is. -/
def Op.Targets (t : Registry) : Op → Prop
  | .publish _ _ _ => True
  | .move tenant fn al rev pre =>
    preconditionFails (t.aliases.findOpt (tenant, fn, al)) pre = false → t.Published tenant fn rev

/-- Every alias name is a qualifier, so the property is one of the table of aliases. -/
theorem resolvesPublished_iff {t : Registry} :
    t.ResolvesPublished ↔
      ∀ tenant fn al d, t.aliases.findOpt (tenant, fn, al) = some d → t.Published tenant fn d := by
  constructor
  · intro h tenant fn al d hal
    obtain ⟨q, hq, -⟩ := Slug.ofString_of_isSlug (str "qualifier") al.isSlug
    exact h tenant fn q d (resolve_eq_ok.2 ⟨al, hq.symm, hal⟩)
  · intro h tenant fn q d hres
    obtain ⟨al, -, hal⟩ := resolve_eq_ok.1 hres
    exact h tenant fn al d hal

/-! ## One call -/

/-- A record stays as it is: a call that would put another one under its key is refused. -/
theorem findOpt_revisions_step {Y : Yojson} {s : Registry × FileSystem} {k : TenantId × FunctionName × Digest}
    {rev : Revision} (h : s.1.revisions.findOpt k = some rev) (op : Op) :
    (step Y s op).1.revisions.findOpt k = some rev := by
  obtain ⟨e, -, heq⟩ | ⟨hallowed, -, heq⟩ := step_cases Y s op
  · rw [heq]
    exact h
  · rw [heq]
    cases op with
    | move tenant fn al rev' pre => exact h
    | publish tenant fn rev' =>
      have hkey : k ≠ (tenant, fn, rev'.digest) := by
        rintro rfl
        rw [Op.Allowed, h] at hallowed
        cases hallowed
      simp only [Op.apply, Hashtbl.findOpt_add, if_neg hkey]
      exact h

/-- Nothing is ever taken out of `revisions`. -/
theorem published_step {Y : Yojson} {s : Registry × FileSystem} {tenant : TenantId} {fn : FunctionName} {d : Digest}
    (h : s.1.Published tenant fn d) (op : Op) : (step Y s op).1.Published tenant fn d := by
  obtain ⟨rev, hrev⟩ := h
  exact ⟨rev, findOpt_revisions_step hrev op⟩

/-- The aliases after a call: those before, but for a move that was made. -/
theorem findOpt_aliases_step {Y : Yojson} {s : Registry × FileSystem} {op : Op} {tenant : TenantId}
    {fn : FunctionName} {al : Alias} {d : RevisionId}
    (h : (step Y s op).1.aliases.findOpt (tenant, fn, al) = some d) :
    s.1.aliases.findOpt (tenant, fn, al) = some d ∨
      ∃ pre, op = .move tenant fn al d pre ∧ preconditionFails (s.1.aliases.findOpt (tenant, fn, al)) pre = false := by
  obtain ⟨e, -, heq⟩ | ⟨hallowed, -, heq⟩ := step_cases Y s op
  · rw [heq] at h
    exact Or.inl h
  · rw [heq] at h
    cases op with
    | publish tenant' fn' rev => exact Or.inl h
    | move tenant' fn' al' rev pre =>
      simp only [Op.apply, Hashtbl.findOpt_replace] at h
      by_cases hkey : (tenant, fn, al) = (tenant', fn', al')
      · rw [if_pos hkey] at h
        cases hkey
        cases h
        exact Or.inr ⟨pre, rfl, hallowed⟩
      · rw [if_neg hkey] at h
        exact Or.inl h

theorem resolvesPublished_step {Y : Yojson} {s : Registry × FileSystem} {op : Op} (h : s.1.ResolvesPublished)
    (hop : op.Targets s.1) : (step Y s op).1.ResolvesPublished := by
  rw [resolvesPublished_iff] at h ⊢
  intro tenant fn al d hal
  apply published_step
  obtain hold | ⟨pre, rfl, hmade⟩ := findOpt_aliases_step hal
  · exact h tenant fn al d hold
  · exact hop hmade

/-- A move that is made to a revision not published for its function shows at once. -/
theorem targets_of_resolvesPublished_step {Y : Yojson} {s : Registry × FileSystem} {op : Op}
    (h : (step Y s op).1.ResolvesPublished) : op.Targets s.1 := by
  cases op with
  | publish tenant fn rev => exact trivial
  | move tenant fn al rev pre =>
    intro hmade
    obtain ⟨hfails, -⟩ | ⟨-, heq⟩ := s.1.moveAlias_cases Y s.2 tenant fn al rev pre
    · rw [hmade] at hfails
      cases hfails
    · rw [step, heq, resolvesPublished_iff] at h
      exact h tenant fn al rev (by simp)

/-! ## Runs -/

theorem resolvesPublished_run {Y : Yojson} {path : Option Str} {fs : FileSystem} (ops : List Op)
    (htargets : ∀ ran op, ran ++ [op] <+: ops → op.Targets (run Y path fs ran).1) :
    (run Y path fs ops).1.ResolvesPublished := by
  induction ops using List.reverseRecOn with
  | nil =>
    rw [resolvesPublished_iff]
    intro tenant fn al d hal
    cases hal
  | append_singleton ops op ih =>
    rw [run_concat]
    apply resolvesPublished_step
    · exact ih fun ran op' hran => htargets ran op' (hran.trans (List.prefix_append _ _))
    · exact htargets ops op List.prefix_rfl

/-- What `run_one` fetches for a tenant and a function is published for them. -/
def FetchesPublished (Y : Yojson) (t : Registry) : Prop :=
  ∀ store fs tenant fn q bundle, fetchBundle Y store fs t tenant fn q = .ok bundle →
    ∃ d b, t.Published tenant fn d ∧ store.get fs d = .ok b ∧ Bundle.parse Y b = .ok bundle

theorem ResolvesPublished.fetches {Y : Yojson} {t : Registry} (h : t.ResolvesPublished) : t.FetchesPublished Y := by
  intro store fs tenant fn q bundle hfetch
  obtain ⟨d, b, hres, hget, hparse⟩ := fetchBundle_eq_ok.1 hfetch
  exact ⟨d, b, h tenant fn q d hres, hget, hparse⟩

/-- **Resolving is sound in every state of a run exactly when every move that is made targets a revision
published for its own tenant and function.** -/
theorem resolve_sound_iff (Y : Yojson) (checkpointPath : Option Str) (fs : FileSystem) (ops : List Op) :
    (∀ ran, ran <+: ops →
      (run Y checkpointPath fs ran).1.ResolvesPublished ∧ (run Y checkpointPath fs ran).1.FetchesPublished Y) ↔
    ∀ ran op, ran ++ [op] <+: ops → op.Targets (run Y checkpointPath fs ran).1 := by
  constructor
  · intro h ran op hran
    have hafter := (h (ran ++ [op]) hran).1
    rw [run_concat] at hafter
    exact targets_of_resolvesPublished_step hafter
  · intro h ran hran
    have hsound := resolvesPublished_run ran fun ran' op hran' => h ran' op (hran'.trans hran)
    exact ⟨hsound, hsound.fetches⟩

/-! ### One tenant's alias on another tenant's bundle -/

open MirageLambda.Bundle (sampleTenant sampleFunction sampleBundle sampleYojson sampleManifestJson)

def intruder : TenantId := ⟨str "mallory", by decide⟩
def intruderFunction : FunctionName := ⟨str "shop", by decide⟩

/-- `acme` publishes its bundle; `mallory` moves an alias of its own to the digest. -/
def crossTenantOps : List Op :=
  [.publish sampleTenant sampleFunction
      ⟨digestOf sampleBundle, sampleManifestJson.toString, str "quickjs-2026-06-04", []⟩,
   .move intruder intruderFunction ⟨str "prod", by decide⟩ (digestOf sampleBundle) none]

/-- The store with that one bundle. -/
def crossTenantFiles : FileSystem :=
  (⟨fun _ => none⟩ : FileSystem).set (ArtifactStore.pathFor ⟨str "/objects"⟩ (digestOf sampleBundle))
    (some (.file sampleBundle))

theorem alias_crosses_tenants :
    let t := (run sampleYojson none crossTenantFiles crossTenantOps).1
    t.resolve intruder intruderFunction ⟨str "prod", by decide⟩ = .ok (digestOf sampleBundle) ∧
      ¬ t.Published intruder intruderFunction (digestOf sampleBundle) ∧
      ∃ bundle, fetchBundle sampleYojson ⟨str "/objects"⟩ crossTenantFiles t intruder intruderFunction
        ⟨str "prod", by decide⟩ = .ok bundle := by
  intro t
  have hres : t.resolve intruder intruderFunction ⟨str "prod", by decide⟩ = .ok (digestOf sampleBundle) :=
    resolve_eq_ok.2 ⟨⟨str "prod", by decide⟩, rfl, rfl⟩
  refine ⟨hres, ?_, ?_⟩
  · rintro ⟨rev, hrev⟩
    have hkey : intruder ≠ sampleTenant := by decide
    have hadd : t.revisions = Hashtbl.empty.add (sampleTenant, sampleFunction, digestOf sampleBundle)
        ⟨digestOf sampleBundle, sampleManifestJson.toString, str "quickjs-2026-06-04", []⟩ := rfl
    rw [hadd, Hashtbl.findOpt_add, if_neg (fun h => hkey (congrArg Prod.fst h))] at hrev
    cases hrev
  · obtain ⟨bundle, hparse⟩ := Bundle.parse_sampleBundle
    have hget : ArtifactStore.get ⟨str "/objects"⟩ crossTenantFiles (digestOf sampleBundle) =
        .ok sampleBundle := by
      refine ArtifactStore.get_eq_ok.2 ⟨?_, rfl⟩
      rw [crossTenantFiles, FileSystem.node_set, if_pos rfl]
    exact ⟨bundle, fetchBundle_eq_ok.2 ⟨_, _, hres, hget, hparse⟩⟩

end Registry
end MirageLambda
