import MirageLambda.Common.JsonText
import MirageLambda.Control.Aliases
import MirageLambda.Lib.Run

/-!
# Checkpoints (control/registry.ml:36-78, 134-177)

`checkpoint_save` prints both tables as one JSON tree, in the order in which the tables are walked; the digest of a
key is not printed, it is the one of the record. `checkpoint_load` reads the tree back, checks every identifier again
and skips an entry it does not like.

* `load_save`: under the invariant `WellKeyed` (distinct keys, every record under its own digest) nothing is skipped
  and nothing is hidden, and the loaded tables are the saved ones. The order of the walk does not matter.
* `checkpoint_faithful`: so after every call that returns, in every run.
* `crash_safe_iff`: a save that is interrupted leaves a file that `checkpoint_load` can read exactly when the last
  byte was written. `open_out` truncates, and `Json_error` is not a `Sys_error`.
-/

namespace MirageLambda
namespace Registry
open OCaml

/-! ## Loading -/

/-- `revision_of_json` (registry.ml:46). -/
def revisionOfJson : Json → Outcome Str Revision
  | .assoc fields =>
    let digest := stringMember fields (str "digest")
    let manifestJson := stringMember fields (str "manifestJson")
    let runtime := stringMember fields (str "runtime")
    let createdAt := stringMember fields (str "createdAt")
    match Digest.ofString digest with
    | .ok d => .ok { digest := d, manifestJson, runtime, createdAt }
    | _ => .error (str "bad digest in checkpoint")
  | _ => .error (str "bad revision json")

/-- One entry of `revisions` (registry.ml:145-157). -/
def loadRevision (t : Registry) : Json → Registry
  | .assoc rf =>
    match TenantId.ofString (stringMember rf (str "tenant")), FunctionName.ofString (stringMember rf (str "function")),
        rf.lookup (str "revision") with
    | .ok tn, .ok fn, some rj => match revisionOfJson rj with
      | .ok rev => { t with revisions := t.revisions.add (key tn fn rev.digest) rev }
      | _ => t
    | _, _, _ => t
  | _ => t

/-- One entry of `aliases` (registry.ml:161-172). -/
def loadAlias (t : Registry) : Json → Registry
  | .assoc af =>
    match TenantId.ofString (stringMember af (str "tenant")), FunctionName.ofString (stringMember af (str "function")),
        Alias.ofString (stringMember af (str "alias")), Digest.ofString (stringMember af (str "revision")) with
    | .ok tn, .ok fn, .ok al, .ok rev => { t with aliases := t.aliases.add (tn, fn, al) rev }
    | _, _, _, _ => t
  | _ => t

/-- `match List.assoc_opt name fields with Some (`List xs) -> List.iter … xs | _ -> ()`. -/
def loadList (load : Registry → Json → Registry) (fields : List (Str × Json)) (name : Str) (t : Registry) : Registry :=
  match fields.lookup name with
  | some (.list xs) => xs.foldl load t
  | _ => t

/-- `checkpoint_load` (registry.ml:134). Only `Sys_error` is caught. -/
def checkpointLoad (Y : Yojson) (fs : FileSystem) (path : Str) : Outcome Str Registry :=
  match (fs.readFile path : Outcome Str Str) with
  | .ok text => match Y.fromString text with
    | .ok (.assoc fields) =>
      .ok (loadList loadAlias fields (str "aliases") (loadList loadRevision fields (str "revisions") (make none)))
    | .ok _ => .error (str "bad checkpoint json")
    | .error m => .raised (.ext "Yojson.Json_error" m)
  | .raised (.sysError _) => .error (str "checkpoint file not found")
  | .raised x => .raised x
  | .error e => .error e

/-! ## Entries -/

/-- The entry of a record. -/
def revisionEntry (x : (TenantId × FunctionName × Digest) × Revision) : Json :=
  .assoc [(str "tenant", .string x.1.1.toStr), (str "function", .string x.1.2.1.toStr),
    (str "revision", revisionToJson x.2)]

def aliasEntry (x : (TenantId × FunctionName × Alias) × RevisionId) : Json :=
  .assoc [(str "tenant", .string x.1.1.toStr), (str "function", .string x.1.2.1.toStr),
    (str "alias", .string x.1.2.2.toStr), (str "revision", .string x.2.toStr)]

theorem checkpointJson_eq (t : Registry) :
    t.checkpointJson = .assoc [(str "revisions", .list (t.revisions.bindings.reverse.map revisionEntry)),
      (str "aliases", .list (t.aliases.bindings.reverse.map aliasEntry))] := by
  unfold checkpointJson
  rw [Hashtbl.fold_cons, Hashtbl.fold_cons]
  rfl

theorem revisionOfJson_revisionToJson (r : Revision) : revisionOfJson (revisionToJson r) = .ok r := by
  have hread : revisionOfJson (revisionToJson r) = match Digest.ofString r.digest.toStr with
      | .ok d => .ok { digest := d, manifestJson := r.manifestJson, runtime := r.runtime, createdAt := r.createdAt }
      | _ => .error (str "bad digest in checkpoint") := rfl
  rw [hread, show Digest.ofString r.digest.toStr = .ok r.digest from Checked.ofString_toStr r.digest]

/-- The entry of a record is read as that record, under the key it had. -/
theorem loadRevision_revisionEntry (t : Registry) {x : (TenantId × FunctionName × Digest) × Revision}
    (hx : x.2.digest = x.1.2.2) :
    loadRevision t (revisionEntry x) = { t with revisions := t.revisions.add x.1 x.2 } := by
  obtain ⟨⟨tn, fn, d⟩, rev⟩ := x
  obtain rfl : rev.digest = d := hx
  have hread : loadRevision t (revisionEntry ((tn, fn, rev.digest), rev)) =
      match TenantId.ofString tn.toStr, FunctionName.ofString fn.toStr, some (revisionToJson rev) with
      | .ok tn, .ok fn, some rj => match revisionOfJson rj with
        | .ok rev => { t with revisions := t.revisions.add (key tn fn rev.digest) rev }
        | _ => t
      | _, _, _ => t := rfl
  rw [hread, show TenantId.ofString tn.toStr = .ok tn from Checked.ofString_toStr tn,
    show FunctionName.ofString fn.toStr = .ok fn from Checked.ofString_toStr fn]
  simp only [revisionOfJson_revisionToJson, key]

theorem loadAlias_aliasEntry (t : Registry) (x : (TenantId × FunctionName × Alias) × RevisionId) :
    loadAlias t (aliasEntry x) = { t with aliases := t.aliases.add x.1 x.2 } := by
  obtain ⟨⟨tn, fn, al⟩, rev⟩ := x
  have hread : loadAlias t (aliasEntry ((tn, fn, al), rev)) =
      match TenantId.ofString tn.toStr, FunctionName.ofString fn.toStr, Alias.ofString al.toStr,
          Digest.ofString rev.toStr with
      | .ok tn, .ok fn, .ok al, .ok rev => { t with aliases := t.aliases.add (tn, fn, al) rev }
      | _, _, _, _ => t := rfl
  rw [hread, show TenantId.ofString tn.toStr = .ok tn from Checked.ofString_toStr tn,
    show FunctionName.ofString fn.toStr = .ok fn from Checked.ofString_toStr fn,
    show Alias.ofString al.toStr = .ok al from Checked.ofString_toStr al,
    show Digest.ofString rev.toStr = .ok rev from Checked.ofString_toStr rev]

theorem foldl_loadRevision (t : Registry) {l : List ((TenantId × FunctionName × Digest) × Revision)}
    (hl : ∀ x ∈ l, x.2.digest = x.1.2.2) :
    (l.map revisionEntry).foldl loadRevision t = { t with revisions := ⟨l.reverse ++ t.revisions.bindings⟩ } := by
  induction l generalizing t with
  | nil => rfl
  | cons x l ih =>
    rw [List.map_cons, List.foldl_cons, loadRevision_revisionEntry t (hl x (by simp)),
      ih _ fun y hy => hl y (by simp [hy])]
    simp [Hashtbl.add]

theorem foldl_loadAlias (t : Registry) (l : List ((TenantId × FunctionName × Alias) × RevisionId)) :
    (l.map aliasEntry).foldl loadAlias t = { t with aliases := ⟨l.reverse ++ t.aliases.bindings⟩ } := by
  induction l generalizing t with
  | nil => rfl
  | cons x l ih =>
    rw [List.map_cons, List.foldl_cons, loadAlias_aliasEntry, ih]
    simp [Hashtbl.add]

theorem plain_checkpointJson (t : Registry) : t.checkpointJson.Plain := by
  have hrevision : ∀ x, (revisionEntry x).Plain := by
    intro x
    refine .assoc fun m hm => ?_
    simp only [List.mem_cons, List.not_mem_nil, or_false] at hm
    rcases hm with rfl | rfl | rfl
    · exact .string _
    · exact .string _
    · refine .assoc fun m hm => ?_
      simp only [List.mem_cons, List.not_mem_nil, or_false] at hm
      rcases hm with rfl | rfl | rfl | rfl <;> exact .string _
  have halias : ∀ x, (aliasEntry x).Plain := by
    intro x
    refine .assoc fun m hm => ?_
    simp only [List.mem_cons, List.not_mem_nil, or_false] at hm
    rcases hm with rfl | rfl | rfl | rfl <;> exact .string _
  rw [checkpointJson_eq]
  refine .assoc fun m hm => ?_
  simp only [List.mem_cons, List.not_mem_nil, or_false] at hm
  rcases hm with rfl | rfl
  · refine .list fun j hj => ?_
    obtain ⟨x, -, rfl⟩ := List.mem_map.1 hj
    exact hrevision x
  · refine .list fun j hj => ?_
    obtain ⟨x, -, rfl⟩ := List.mem_map.1 hj
    exact halias x

/-! ## What is loaded is what was saved -/

/-- The two registries have the same tables. -/
structure SameTables (t t' : Registry) : Prop where
  revisions : ∀ k, t.revisions.findOpt k = t'.revisions.findOpt k
  aliases : ∀ k, t.aliases.findOpt k = t'.aliases.findOpt k

/-- The invariant: no key is bound twice, and a record is under its own digest. -/
structure WellKeyed (t : Registry) : Prop where
  revisions : t.revisions.Distinct
  aliases : t.aliases.Distinct
  digests : ∀ x ∈ t.revisions.bindings, x.2.digest = x.1.2.2

/-- The tree of two tables, walked in any order. -/
def treeOf (revs : List ((TenantId × FunctionName × Digest) × Revision))
    (als : List ((TenantId × FunctionName × Alias) × RevisionId)) : Json :=
  .assoc [(str "revisions", .list (revs.map revisionEntry)), (str "aliases", .list (als.map aliasEntry))]

/-- Whatever the order of the entries, the tables come back. -/
theorem load_treeOf {Y : Yojson} {t : Registry} (h : t.WellKeyed) {fs : FileSystem} {path text : Str}
    {revs : List ((TenantId × FunctionName × Digest) × Revision)}
    {als : List ((TenantId × FunctionName × Alias) × RevisionId)} (hrevs : revs.Perm t.revisions.bindings)
    (hals : als.Perm t.aliases.bindings) (hfile : fs.node path = some (.file text))
    (htext : Y.fromString text = .ok (treeOf revs als)) :
    ∃ t', checkpointLoad Y fs path = .ok t' ∧ SameTables t' t := by
  have hread : (fs.readFile path : Outcome Str Str) = .ok text := by
    simp only [FileSystem.readFile, hfile]
  have hload : checkpointLoad Y fs path =
      .ok ((als.map aliasEntry).foldl loadAlias ((revs.map revisionEntry).foldl loadRevision (make none))) := by
    unfold checkpointLoad
    simp only [hread, htext]
    rfl
  have hdigests : ∀ x ∈ revs, x.2.digest = x.1.2.2 := fun x hx => h.digests x (hrevs.mem_iff.1 hx)
  refine ⟨_, hload, ?_, ?_⟩
  · rw [foldl_loadAlias, foldl_loadRevision _ hdigests]
    apply h.revisions.findOpt_perm
    simpa [make, Hashtbl.empty] using (revs.reverse_perm).trans hrevs
  · rw [foldl_loadAlias, foldl_loadRevision _ hdigests]
    apply h.aliases.findOpt_perm
    simpa [make, Hashtbl.empty] using (als.reverse_perm).trans hals

/-- **Loading a saved checkpoint** gives the tables back. -/
theorem load_save {Y : Yojson} (hY : Y.ReadsBackPlain) {t : Registry} (h : t.WellKeyed) {fs : FileSystem} {path : Str}
    (hfile : fs.node path = some (.file (Y.prettyToString t.checkpointJson))) :
    ∃ t', checkpointLoad Y fs path = .ok t' ∧ SameTables t' t := by
  have htext := hY _ t.plain_checkpointJson
  rw [checkpointJson_eq] at htext hfile
  exact load_treeOf h (List.reverse_perm _) (List.reverse_perm _) hfile htext

/-! ## Runs -/

theorem SameTables.resolve {t t' : Registry} (h : SameTables t' t) (tenant : TenantId) (fn : FunctionName)
    (q : Qualifier) : t'.resolve tenant fn q = t.resolve tenant fn q :=
  resolve_congr h.aliases tenant fn q

theorem wellKeyed_make (path : Option Str) : (make path).WellKeyed where
  revisions := Hashtbl.distinct_empty
  aliases := Hashtbl.distinct_empty
  digests := fun _ hx => absurd hx List.not_mem_nil

theorem WellKeyed.apply {t : Registry} (h : t.WellKeyed) {op : Op} (hallowed : op.Allowed t) :
    (op.apply t).WellKeyed := by
  cases op with
  | publish tenant fn rev =>
    refine ⟨h.revisions.add hallowed rev, h.aliases, fun x hx => ?_⟩
    obtain rfl | hold := List.mem_cons.1 hx
    · rfl
    · exact h.digests x hold
  | move tenant fn al rev pre => exact ⟨h.revisions, h.aliases.replace _ rev, h.digests⟩

theorem checkpointPath_apply (t : Registry) (op : Op) : (op.apply t).checkpointPath = t.checkpointPath := by
  cases op <;> rfl

/-- What holds in every state of a run: the invariant, and the path never changes. -/
structure Kept (path : Str) (s : Registry × FileSystem) : Prop where
  keyed : s.1.WellKeyed
  path : s.1.checkpointPath = some path

theorem kept_step (Y : Yojson) (path : Str) (s : Registry × FileSystem) (op : Op) (h : Kept path s) :
    Kept path (step Y s op) := by
  obtain ⟨e, -, heq⟩ | ⟨hallowed, -, heq⟩ := step_cases Y s op
  · rw [heq]
    exact h
  · rw [heq]
    exact ⟨h.keyed.apply hallowed, (checkpointPath_apply s.1 op).trans h.path⟩

theorem kept_run (Y : Yojson) (path : Str) (fs : FileSystem) (ops : List Op) : Kept path (run Y (some path) fs ops) :=
  Run.invariant (kept_step Y path) ⟨wellKeyed_make _, rfl⟩ ops

/-- After a call that returned, the checkpoint has the tables. -/
theorem load_step {Y : Yojson} (hY : Y.ReadsBackPlain) {path : Str} {s : Registry × FileSystem} {op : Op}
    (h : Kept path s) (hok : result Y s op = .ok ()) :
    ∃ t', checkpointLoad Y (step Y s op).2 path = .ok t' ∧ SameTables t' (step Y s op).1 := by
  have hafter := kept_step Y path s op h
  obtain ⟨e, herr, -⟩ | ⟨-, hresult, heq⟩ := step_cases Y s op
  · rw [hok] at herr
    cases herr
  · rw [heq] at hafter ⊢
    apply load_save hY hafter.keyed
    rw [hok] at hresult
    obtain ⟨x, hraised⟩ | hwritten := checkpointSave_cases Y hafter.path s.2
    · rw [hraised] at hresult
      cases hresult
    · rw [hwritten, FileSystem.node_set, if_pos rfl]

/-- A call that failed changed nothing: a save ends with `Ok` or with an exception. -/
theorem step_error {Y : Yojson} {path : Str} {s : Registry × FileSystem} {op : Op} {e : Error} (h : Kept path s)
    (herr : result Y s op = .error e) : step Y s op = s := by
  obtain ⟨e', -, heq⟩ | ⟨-, hresult, -⟩ := step_cases Y s op
  · exact heq
  · rw [herr] at hresult
    obtain ⟨x, hraised⟩ | hwritten := checkpointSave_cases Y ((checkpointPath_apply s.1 op).trans h.path) s.2
    · rw [hraised] at hresult
      cases hresult
    · rw [hwritten] at hresult
      cases hresult

theorem findOpt_revisions_run {Y : Yojson} {s : Registry × FileSystem} {k : TenantId × FunctionName × Digest}
    {rev : Revision} (h : s.1.revisions.findOpt k = some rev) (ops : List Op) :
    (ops.foldl (step Y) s).1.revisions.findOpt k = some rev :=
  Run.invariant (I := fun s : Registry × FileSystem => s.1.revisions.findOpt k = some rev)
    (fun _ op hs => findOpt_revisions_step hs op) h ops

/-- **Checkpoints are faithful.** In every run on a registry with a checkpoint path: after a call that succeeded the
file holds the tables, records never change, and a call that failed changed nothing. -/
theorem checkpoint_faithful (Y : Yojson) (hY : Y.ReadsBackPlain) (path : Str) (fs : FileSystem) (ops : List Op) :
    (∀ ran op, ran ++ [op] <+: ops → result Y (run Y (some path) fs ran) op = .ok () →
      let s := run Y (some path) fs (ran ++ [op])
      ∃ t', checkpointLoad Y s.2 path = .ok t' ∧ SameTables t' s.1 ∧
        ∀ tenant fn q, t'.resolve tenant fn q = s.1.resolve tenant fn q) ∧
    (∀ ran more k rev, ran ++ more <+: ops → (run Y (some path) fs ran).1.revisions.findOpt k = some rev →
      (run Y (some path) fs (ran ++ more)).1.revisions.findOpt k = some rev) ∧
    (∀ ran op e, ran ++ [op] <+: ops → result Y (run Y (some path) fs ran) op = .error e →
      (run Y (some path) fs (ran ++ [op])).1 = (run Y (some path) fs ran).1) := by
  refine ⟨?_, ?_, ?_⟩
  · intro ran op _ hok s
    obtain ⟨t', hload, hsame⟩ := load_step hY (kept_run Y path fs ran) hok
    rw [← run_concat] at hload hsame
    exact ⟨t', hload, hsame, hsame.resolve⟩
  · intro ran more k rev _ hrev
    rw [run, List.foldl_append]
    exact findOpt_revisions_run hrev more
  · intro ran op e _ herr
    rw [run_concat]
    exact congrArg Prod.fst (step_error (kept_run Y path fs ran) herr)

/-! ### A published revision, an alias on it, a lost update -/

open MirageLambda.Bundle (sampleTenant sampleFunction)
open JsonText (print plainYojson readsBackPlain_plainYojson refusesCut_plainYojson)

/-- A digest and another one. -/
def digestA : Digest := ⟨List.replicate 64 (chr 'a'), by decide⟩
def digestB : Digest := ⟨List.replicate 64 (chr 'b'), by decide⟩

def blue : Alias := ⟨str "blue", by decide⟩

def sampleRevision : Revision := ⟨digestA, str "manifest \"1\"", str "quickjs", str "1"⟩

def sampleOps : List Op :=
  [.publish sampleTenant sampleFunction sampleRevision,
   .move sampleTenant sampleFunction blue digestA none,
   .move sampleTenant sampleFunction blue digestB (some digestB),
   .move sampleTenant sampleFunction blue digestB (some digestA)]

theorem checkpoint_faithful_sample :
    let s := run plainYojson (some (str "/registry.json")) ⟨fun _ => none⟩ sampleOps
    (∃ t', checkpointLoad plainYojson s.2 (str "/registry.json") = .ok t' ∧ SameTables t' s.1 ∧
      ∀ tenant fn q, t'.resolve tenant fn q = s.1.resolve tenant fn q) ∧
    s.1.aliases.findOpt (sampleTenant, sampleFunction, blue) = some digestB ∧
    s.1.revisions.findOpt (sampleTenant, sampleFunction, digestA) = some sampleRevision := by
  intro s
  have hrun := checkpoint_faithful plainYojson readsBackPlain_plainYojson (str "/registry.json") ⟨fun _ => none⟩ sampleOps
  refine ⟨?_, by decide +kernel, by decide +kernel⟩
  exact hrun.1 (sampleOps.take 3) _ List.prefix_rfl (by decide +kernel)

/-! ## Interrupted saves -/

/-- The files when the process stops in `checkpoint_save` after `n` bytes of the new text have reached the file:
`open_out` truncated it before the first one (registry.ml:75). -/
def interruptedSave (Y : Yojson) (t : Registry) (fs : FileSystem) (n : Nat) : FileSystem :=
  match t.checkpointPath with
  | none => fs
  | some path => (fs.writeFile (ε := Error) path ((Y.prettyToString t.checkpointJson).take n)).2

/-- The registry recovers one of two states. -/
def Recovers (Y : Yojson) (fs : FileSystem) (path : Str) (before after : Registry) : Prop :=
  ∃ t, checkpointLoad Y fs path = .ok t ∧ (SameTables t before ∨ SameTables t after)

theorem node_interruptedSave {Y : Yojson} {t : Registry} {path : Str} (hpath : t.checkpointPath = some path)
    {fs : FileSystem} (hopen : (fs.writeFile (ε := Error) path []).1 = .ok ()) (n : Nat) :
    (interruptedSave Y t fs n).node path = some (.file ((Y.prettyToString t.checkpointJson).take n)) := by
  simp only [interruptedSave, hpath, FileSystem.writeFile_of_open hopen, FileSystem.node_set, if_true]

/-- A file that breaks off makes `checkpoint_load` raise. -/
theorem load_cut {Y : Yojson} (hcut : Y.RefusesCut) {t : Registry} {fs : FileSystem} {path : Str} {n : Nat}
    (hn : n < (Y.prettyToString t.checkpointJson).length)
    (hfile : fs.node path = some (.file ((Y.prettyToString t.checkpointJson).take n))) :
    ∃ m, checkpointLoad Y fs path = .raised (.ext "Yojson.Json_error" m) := by
  obtain ⟨m, hm⟩ := hcut _ t.plain_checkpointJson n hn
  refine ⟨m, ?_⟩
  have hread : (fs.readFile path : Outcome Str Str) = .ok ((Y.prettyToString t.checkpointJson).take n) := by
    simp only [FileSystem.readFile, hfile]
  simp only [checkpointLoad, hread, hm]

/-- **A save can be interrupted safely exactly after its last byte.** In every state of every run, for every call that
changes the tables: the file can be loaded, as the state before the call or the one after it, exactly when the whole
text has reached it. -/
theorem crash_safe_iff (Y : Yojson) (hY : Y.ReadsBackPlain) (hcut : Y.RefusesCut) (path : Str) (fs : FileSystem)
    (ops : List Op) (op : Op) (n : Nat) :
    let s := run Y (some path) fs ops
    let after := op.apply s.1
    op.Allowed s.1 → (s.2.writeFile (ε := Error) path []).1 = .ok () →
      n ≤ (Y.prettyToString after.checkpointJson).length →
      (Recovers Y (interruptedSave Y after s.2 n) path s.1 after ↔ n = (Y.prettyToString after.checkpointJson).length) := by
  intro s after hallowed hopen hn
  have hkept := kept_run Y path fs ops
  have hpath : after.checkpointPath = some path := (checkpointPath_apply s.1 op).trans hkept.path
  have hfile := node_interruptedSave (Y := Y) hpath hopen n
  constructor
  · rintro ⟨t, hload, -⟩
    by_contra hne
    obtain ⟨m, hraised⟩ := load_cut hcut (lt_of_le_of_ne hn hne) hfile
    rw [hraised] at hload
    cases hload
  · rintro rfl
    rw [List.take_length] at hfile
    obtain ⟨t, hload, hsame⟩ := load_save hY (hkept.keyed.apply hallowed) hfile
    exact ⟨t, hload, Or.inr hsame⟩

/-- The alias of the sample is moved back, and the process stops after the file has been truncated. -/
theorem truncated_checkpoint_lost :
    let s := run plainYojson (some (str "/registry.json")) ⟨fun _ => none⟩ sampleOps
    let op : Op := .move sampleTenant sampleFunction blue digestA none
    op.Allowed s.1 ∧ (s.2.writeFile (ε := Error) (str "/registry.json") []).1 = .ok () ∧
      (∃ m, checkpointLoad plainYojson (interruptedSave plainYojson (op.apply s.1) s.2 0) (str "/registry.json") =
        .raised (.ext "Yojson.Json_error" m)) ∧
      ¬ Recovers plainYojson (interruptedSave plainYojson (op.apply s.1) s.2 0) (str "/registry.json") s.1
        (op.apply s.1) := by
  intro s op
  have hopen : (s.2.writeFile (ε := Error) (str "/registry.json") []).1 = .ok () := by decide +kernel
  have hpath : (op.apply s.1).checkpointPath = some (str "/registry.json") := by decide +kernel
  have hfile := node_interruptedSave (Y := plainYojson) hpath hopen 0
  have hraised := load_cut refusesCut_plainYojson (by decide +kernel) hfile
  refine ⟨by decide +kernel, hopen, hraised, ?_⟩
  rintro ⟨t, hload, -⟩
  obtain ⟨m, hm⟩ := hraised
  rw [hm] at hload
  cases hload

/-- The same call when the whole text has been written. -/
theorem crash_safe_iff_whole :
    let s := run plainYojson (some (str "/registry.json")) ⟨fun _ => none⟩ sampleOps
    let op : Op := .move sampleTenant sampleFunction blue digestA none
    let text := print (op.apply s.1).checkpointJson
    Recovers plainYojson (interruptedSave plainYojson (op.apply s.1) s.2 text.length) (str "/registry.json") s.1
      (op.apply s.1) := by
  intro s op text
  exact (crash_safe_iff plainYojson readsBackPlain_plainYojson refusesCut_plainYojson (str "/registry.json")
    ⟨fun _ => none⟩ sampleOps op text.length (by decide +kernel) (by decide +kernel) (Nat.le_refl _)).2 rfl

end Registry
end MirageLambda
