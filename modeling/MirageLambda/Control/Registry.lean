import MirageLambda.Lib.Hashtbl
import MirageLambda.Lib.FileSystem
import MirageLambda.Common.CanonicalJson
import MirageLambda.Common.Ids

/-!
# The revision registry (control/registry.ml)

Two tables: `revisions`, keyed by tenant, function and digest, and `aliases`, from tenant, function and
alias to a digest. The registry is a value here; a call that writes the checkpoint takes the file system
and returns it. An exception of the write leaves the call after the table has changed, as in the source
(`ignore` drops a result, not an exception).

* `checkpointSave` — `checkpoint_save` (57)
* `publishRevision`, `resolve`, `moveAlias` — 80, 94, 120
-/

namespace MirageLambda
open OCaml

/-- `Revision_id = Digest` (ids.ml:226). -/
abbrev RevisionId : Type := Digest

namespace Registry

/-- `revision` (registry.ml:9). -/
structure Revision where
  digest : Digest
  manifestJson : Str
  runtime : Str
  createdAt : Str
deriving DecidableEq

end Registry

/-- `Registry.t` (registry.ml:22). -/
structure Registry where
  revisions : Hashtbl (TenantId × FunctionName × Digest) Registry.Revision
  aliases : Hashtbl (TenantId × FunctionName × Alias) RevisionId
  checkpointPath : Option Str

namespace Registry

/-- `make` (registry.ml:28). -/
def make (checkpointPath : Option Str) : Registry := { revisions := .empty, aliases := .empty, checkpointPath }

/-- `key` (registry.ml:34). -/
def key (tenant : TenantId) (fn : FunctionName) (digest : Digest) : TenantId × FunctionName × Digest :=
  (tenant, fn, digest)

def notFound (msg : String) : Error := Error.make .notFound .storageError (str msg)

/-! ## The checkpoint -/

/-- `revision_to_json` (registry.ml:38). -/
def revisionToJson (r : Revision) : Json :=
  .assoc [(str "digest", .string r.digest.toStr), (str "manifestJson", .string r.manifestJson),
    (str "runtime", .string r.runtime), (str "createdAt", .string r.createdAt)]

/-- The tree that `checkpoint_save` prints (registry.ml:61-74). -/
def checkpointJson (t : Registry) : Json :=
  let revs := t.revisions.fold (fun k r acc =>
    .assoc [(str "tenant", .string k.1.toStr), (str "function", .string k.2.1.toStr),
      (str "revision", revisionToJson r)] :: acc) []
  let aliases := t.aliases.fold (fun k rev acc =>
    .assoc [(str "tenant", .string k.1.toStr), (str "function", .string k.2.1.toStr),
      (str "alias", .string k.2.2.toStr), (str "revision", .string rev.toStr)] :: acc) []
  .assoc [(str "revisions", .list revs), (str "aliases", .list aliases)]

/-- `checkpoint_save` (registry.ml:57). -/
def checkpointSave (Y : Yojson) (t : Registry) (fs : FileSystem) : Outcome Error Unit × FileSystem :=
  match t.checkpointPath with
  | none => (.ok (), fs)
  | some path => fs.writeFile path (Y.prettyToString t.checkpointJson)

/-- A save raises and leaves the files alone, or it has put the printed tables at the path. -/
theorem checkpointSave_cases (Y : Yojson) {t : Registry} {path : Str} (hpath : t.checkpointPath = some path)
    (fs : FileSystem) :
    (∃ x, t.checkpointSave Y fs = (.raised x, fs)) ∨
      t.checkpointSave Y fs = (.ok (), fs.set path (some (.file (Y.prettyToString t.checkpointJson)))) := by
  simp only [checkpointSave, hpath]
  exact fs.writeFile_cases path _

/-! ## The operations -/

/-- `publish_revision` (registry.ml:80). -/
def publishRevision (Y : Yojson) (t : Registry) (fs : FileSystem) (tenant : TenantId)
    (functionName : FunctionName) (revision : Revision) : Outcome Error Unit × Registry × FileSystem :=
  let k := key tenant functionName revision.digest
  if t.revisions.mem k then
    (.error (Error.make .conflict .packageError (str "revision already published")), t, fs)
  else
    let t := { t with revisions := t.revisions.add k revision }
    let saved := t.checkpointSave Y fs
    (saved.1, t, saved.2)

/-- The `Hashtbl.fold` of `resolve` (registry.ml:99). -/
def findRevision (t : Registry) (tenant : TenantId) (functionName : FunctionName) (digest : Digest) :
    Option Revision :=
  t.revisions.fold (fun k rev acc =>
    if k.1 = tenant ∧ k.2.1 = functionName ∧ k.2.2 = digest then some rev else acc) none

/-- `resolve` (registry.ml:94). -/
def resolve (t : Registry) (tenant : TenantId) (functionName : FunctionName) (qualifier : Qualifier) :
    Outcome Error RevisionId :=
  match Digest.ofString qualifier.toStr with
  | .ok digest => match t.findRevision tenant functionName digest with
    | some rev => .ok rev.digest
    | none => .error (notFound "revision not found")
  | _ => match Alias.ofString qualifier.toStr with
    | .ok alias_ => match t.aliases.findOpt (tenant, functionName, alias_) with
      | some revId => .ok revId
      | none => .error (notFound "alias not found")
    | _ => .error (notFound "qualifier is neither a digest nor a known alias")

/-- The compare-and-set test of `move_alias` (registry.ml:123): there is an alias, the caller expects
another revision. -/
def preconditionFails (current precondition : Option RevisionId) : Bool :=
  match current, precondition with
  | some current, some expected => !(current = expected)
  | _, _ => false

/-- `move_alias` (registry.ml:120). -/
def moveAlias (Y : Yojson) (t : Registry) (fs : FileSystem) (tenant : TenantId) (functionName : FunctionName)
    (alias_ : Alias) (revision : RevisionId) (precondition : Option RevisionId) :
    Outcome Error Unit × Registry × FileSystem :=
  let k := (tenant, functionName, alias_)
  if preconditionFails (t.aliases.findOpt k) precondition then
    (.error (Error.make .conflict .storageError (str "alias precondition failed (lost update)")), t, fs)
  else
    let t := { t with aliases := t.aliases.replace k revision }
    let saved := t.checkpointSave Y fs
    (saved.1, t, saved.2)

/-! ## What the operations do to the tables -/

/-- A record is in `revisions`. -/
def Published (t : Registry) (tenant : TenantId) (fn : FunctionName) (d : Digest) : Prop :=
  ∃ rev, t.revisions.findOpt (tenant, fn, d) = some rev

/-- Publishing either changes nothing or adds one record under its own digest. -/
theorem publishRevision_cases (Y : Yojson) (t : Registry) (fs : FileSystem) (tenant : TenantId)
    (fn : FunctionName) (rev : Revision) :
    (∃ e, t.publishRevision Y fs tenant fn rev = (.error e, t, fs)) ∨
      (t.revisions.findOpt (tenant, fn, rev.digest) = none ∧
        let t' := { t with revisions := t.revisions.add (tenant, fn, rev.digest) rev }
        t.publishRevision Y fs tenant fn rev =
          ((t'.checkpointSave Y fs).1, t', (t'.checkpointSave Y fs).2)) := by
  unfold publishRevision
  by_cases hmem : t.revisions.mem (key tenant fn rev.digest) = true
  · left
    simp only [hmem, if_true]
    exact ⟨_, rfl⟩
  · right
    simp only [hmem, Bool.false_eq_true, if_false]
    refine ⟨?_, rfl⟩
    rw [Hashtbl.mem_eq_true, not_exists] at hmem
    exact Option.eq_none_iff_forall_ne_some.2 hmem

theorem moveAlias_cases (Y : Yojson) (t : Registry) (fs : FileSystem) (tenant : TenantId) (fn : FunctionName)
    (al : Alias) (rev : RevisionId) (pre : Option RevisionId) :
    (preconditionFails (t.aliases.findOpt (tenant, fn, al)) pre = true ∧
      ∃ e, t.moveAlias Y fs tenant fn al rev pre = (.error e, t, fs)) ∨
    (preconditionFails (t.aliases.findOpt (tenant, fn, al)) pre = false ∧
      let t' := { t with aliases := t.aliases.replace (tenant, fn, al) rev }
      t.moveAlias Y fs tenant fn al rev pre =
        ((t'.checkpointSave Y fs).1, t', (t'.checkpointSave Y fs).2)) := by
  by_cases hpre : preconditionFails (t.aliases.findOpt (tenant, fn, al)) pre = true
  · refine Or.inl ⟨hpre, ?_⟩
    simp only [moveAlias, hpre, if_true]
    exact ⟨_, rfl⟩
  · refine Or.inr ⟨by simpa using hpre, ?_⟩
    simp only [moveAlias, hpre, Bool.false_eq_true, if_false]

/-- A qualifier is a slug, and a slug is never 64 bytes long: only the alias branch of `resolve` is
ever taken. -/
theorem resolve_eq (t : Registry) (tenant : TenantId) (fn : FunctionName) (q : Qualifier) :
    ∃ al : Alias, al.toStr = q.toStr ∧ t.resolve tenant fn q =
      match t.aliases.findOpt (tenant, fn, al) with
      | some revId => .ok revId
      | none => .error (notFound "alias not found") := by
  have hdigest : ∀ x : Digest, Digest.ofString q.toStr ≠ .ok x := by
    intro x hx
    exact digest_not_slug x q (Checked.ofString_eq_ok.1 hx)
  obtain ⟨al, hal, hof⟩ := Slug.ofString_of_isSlug (str "alias") q.isSlug
  have halias : Alias.ofString q.toStr = .ok al := hof
  refine ⟨al, hal, ?_⟩
  unfold resolve
  split
  · rename_i x hx
    exact absurd hx (hdigest x)
  · rw [halias]

theorem resolve_eq_ok {t : Registry} {tenant : TenantId} {fn : FunctionName} {q : Qualifier} {d : RevisionId} :
    t.resolve tenant fn q = .ok d ↔
      ∃ al : Alias, al.toStr = q.toStr ∧ t.aliases.findOpt (tenant, fn, al) = some d := by
  obtain ⟨al, hal, heq⟩ := t.resolve_eq tenant fn q
  rw [heq]
  constructor
  · intro h
    split at h
    · rename_i r hr
      cases h
      exact ⟨al, hal, hr⟩
    · cases h
  · rintro ⟨al', hal', hfind⟩
    have hsame : al' = al := Checked.ext (hal'.trans hal.symm)
    subst hsame
    rw [hfind]

/-- `resolve` depends on the aliases alone. -/
theorem resolve_congr {t t' : Registry} (h : ∀ k, t'.aliases.findOpt k = t.aliases.findOpt k) (tenant : TenantId)
    (fn : FunctionName) (q : Qualifier) : t'.resolve tenant fn q = t.resolve tenant fn q := by
  obtain ⟨al, hal, heq⟩ := t.resolve_eq tenant fn q
  obtain ⟨al', hal', heq'⟩ := t'.resolve_eq tenant fn q
  obtain rfl : al' = al := Checked.ext (hal'.trans hal.symm)
  rw [heq, heq', h]

theorem resolve_returns (t : Registry) (tenant : TenantId) (fn : FunctionName) (q : Qualifier) :
    (t.resolve tenant fn q).Returns := by
  unfold resolve
  repeat' split
  all_goals simp

end Registry
end MirageLambda
