import MirageLambda.Lib.FileSystem
import MirageLambda.Common.ConstantTime
import MirageLambda.Common.Sha256

/-!
# The artifact store (control/artifact_store.ml)

Objects live at `root/xx/digest/bundle.mlb`, where `xx` are the first two characters of the digest. The
store itself is only its root; the objects are in the file system, which every operation takes and
returns.

`Result.get_ok (Ids.Digest.of_string computed)` cannot fail: the hex form of a hash is a digest
(`digestOf`).
-/

namespace MirageLambda
open OCaml

theorem isHex_hexDigit {n : Nat} (h : n < 16) : isHex (hexDigit n) = true := by
  interval_cases n <;> decide

theorem isHex_toHex (raw : Str) : ∀ c ∈ Sha256.toHex raw, isHex c = true := by
  intro c hc
  simp only [Sha256.toHex, List.mem_flatMap, List.mem_cons, List.not_mem_nil, or_false] at hc
  obtain ⟨b, _, rfl | rfl⟩ := hc
  · have := b.toNat_lt
    exact isHex_hexDigit (by omega)
  · exact isHex_hexDigit (by omega)

/-- The digest of a byte string. -/
def digestOf (bytes : Str) : Digest :=
  ⟨Sha256.toHex (Sha256.hash bytes), digestCheck_eq_ok.2 ⟨by simp, isHex_toHex _⟩⟩

theorem toStr_digestOf (bytes : Str) : (digestOf bytes).toStr = Sha256.toHex (Sha256.hash bytes) := rfl

theorem ofString_toHex_hash (bytes : Str) :
    Digest.ofString (Sha256.toHex (Sha256.hash bytes)) = .ok (digestOf bytes) :=
  Checked.ofString_eq_ok.2 rfl

/-- `Artifact_store.t` (artifact_store.ml:9). -/
structure ArtifactStore where
  root : Str
deriving DecidableEq, Repr

namespace ArtifactStore

/-- `mk`, the loop of `ensure_dir` (artifact_store.ml:15). A path has fewer components than bytes, so the
number of steps is never used up (`mkAll_succ`). -/
def mkAll : Nat → FileSystem → Str → Outcome Error Unit × FileSystem
  | 0, fs, _ => (.ok (), fs)
  | n + 1, fs, d =>
    if fs.fileExists d then (.ok (), fs)
    else
      let parent := mkAll n fs (dirname d)
      match parent.1 with
      | .ok () =>
        let made := parent.2.mkdir d
        if made.1 = .raised (.ext "Unix.Unix_error" (str "EEXIST")) then (.ok (), made.2) else made
      | failed => (failed, parent.2)

/-- `ensure_dir` (artifact_store.ml:13). -/
def ensureDir (fs : FileSystem) (dir : Str) : Outcome Error Unit × FileSystem := mkAll (dir.length + 2) fs dir

/-- `make` (artifact_store.ml:22). -/
def make (fs : FileSystem) (root : Str) : Outcome Error ArtifactStore × FileSystem :=
  let made := ensureDir fs root
  (made.1 >>= fun _ => .ok ⟨root⟩, made.2)

/-- `path_for` (artifact_store.ml:26). -/
def pathFor (t : ArtifactStore) (digest : Digest) : Str :=
  let digestHex := digest.toStr
  let shard := digestHex.take 2
  let dir := concat (concat t.root shard) digestHex
  concat dir (str "bundle.mlb")

inductive Put where
  | created | alreadyPresent
deriving DecidableEq, Repr

/-- `put_if_absent` (artifact_store.ml:36). -/
def putIfAbsent (t : ArtifactStore) (fs : FileSystem) (digestBytes : Digest) (bytes : Str) :
    Outcome Error Put × FileSystem :=
  let path := t.pathFor digestBytes
  let made := ensureDir fs (dirname path)
  match made.1 with
  | .error e => (.error e, made.2)
  | .raised x => (.raised x, made.2)
  | .ok () =>
    let fs := made.2
    if fs.fileExists path then (.ok .alreadyPresent, fs)
    else
      let computed := Sha256.toHex (Sha256.hash bytes)
      match (Digest.ofString computed).getOk with
      | .error e => (.error e, fs)
      | .raised x => (.raised x, fs)
      | .ok computed =>
        if !constantTimeEqual digestBytes.toStr computed.toStr then
          (.error (Error.make .invalidRequest .packageError (str "digest mismatch on ingest")), fs)
        else
          let written := fs.writeFile path bytes
          (written.1 >>= fun _ => .ok .created, written.2)

/-- `get` (artifact_store.ml:56). -/
def get (t : ArtifactStore) (fs : FileSystem) (digestBytes : Digest) : Outcome Error Str :=
  let path := t.pathFor digestBytes
  if !fs.fileExists path then
    .error (Error.make .notFound .storageError (str "object not found"))
  else do
    let buf ← fs.readFile path
    let computed := Sha256.toHex (Sha256.hash buf)
    let computed ← (Digest.ofString computed).getOk
    if !constantTimeEqual digestBytes.toStr computed.toStr then
      .error (Error.make .internal .storageError (str "digest mismatch on read (corrupt object)"))
    else .ok buf

/-- The directory of an object (artifact_store.ml:28, 78). -/
def dirFor (t : ArtifactStore) (digest : Digest) : Str :=
  concat (concat t.root (digest.toStr.take 2)) digest.toStr

/-- `delete` (artifact_store.ml:76). What the three removals raise is dropped. `others` says whether the directory
holds something besides the two files of the store. -/
def delete (t : ArtifactStore) (fs : FileSystem) (digestBytes : Digest) (others : Bool) :
    Outcome Error Unit × FileSystem :=
  let dir := t.dirFor digestBytes
  if fs.fileExists dir then
    let bundle := concat dir (str "bundle.mlb")
    let metadata := concat dir (str "metadata.json")
    let fs := (fs.remove (ε := Error) bundle).2
    let fs := (fs.remove (ε := Error) metadata).2
    let occupied := others || fs.fileExists bundle || fs.fileExists metadata
    (.ok (), (fs.rmdir (ε := Error) dir occupied).2)
  else (.ok (), fs)

/-! ## Directories -/

/-- One more step makes no difference: the recursion reaches an existing directory before. -/
theorem mkAll_succ {n : Nat} (fs : FileSystem) (d : Str) (hn : d.length + 2 ≤ n) :
    mkAll (n + 1) fs d = mkAll n fs d := by
  induction n generalizing d with
  | zero => omega
  | succ n ih =>
    have hparent : mkAll (n + 1) fs (dirname d) = mkAll n fs (dirname d) := by
      by_cases h2 : 2 ≤ d.length
      · have := length_dirname_lt h2
        exact ih (dirname d) (by omega)
      · obtain ⟨k, rfl⟩ : ∃ k, n = k + 1 := ⟨n - 1, by omega⟩
        rcases dirname_of_short (by omega : d.length < 2) with h | h <;> rw [h] <;>
          simp [mkAll, FileSystem.fileExists, FileSystem.isDir]
    rw [mkAll, hparent]
    rfl

/-- `ensure_dir` adds directories at paths where nothing was, no longer than the one asked for. -/
theorem node_mkAll (n : Nat) (fs : FileSystem) (d p : Str) :
    (mkAll n fs d).2.node p = fs.node p ∨ (fs.node p = none ∧ p.length ≤ max 1 d.length) := by
  induction n generalizing d with
  | zero => exact Or.inl rfl
  | succ n ih =>
    rw [mkAll]
    by_cases hex : fs.fileExists d = true
    · rw [if_pos hex]
      exact Or.inl rfl
    rw [if_neg hex]
    have hle : (dirname d).length ≤ max 1 d.length := by
      by_cases h2 : 2 ≤ d.length
      · exact le_trans (le_of_lt (length_dirname_lt h2)) (le_max_right _ _)
      · rcases dirname_of_short (by omega : d.length < 2) with h | h <;> rw [h] <;> exact le_max_left _ _
    have hparent : (mkAll n fs (dirname d)).2.node p = fs.node p ∨
        (fs.node p = none ∧ p.length ≤ max 1 d.length) := by
      rcases ih (dirname d) with h | ⟨h, hlen⟩
      · exact Or.inl h
      · exact Or.inr ⟨h, by omega⟩
    have hmade : ((mkAll n fs (dirname d)).2.mkdir (ε := Error) d).2.node p = fs.node p ∨
        (fs.node p = none ∧ p.length ≤ max 1 d.length) := by
      rcases FileSystem.mkdir_cases (ε := Error) (mkAll n fs (dirname d)).2 d with h | ⟨hnone, h⟩
      · rw [h]
        exact hparent
      · rw [h, FileSystem.node_set]
        by_cases hpd : p = d
        · subst hpd
          rcases hparent with hp | hp
          · exact Or.inr ⟨hp ▸ hnone, le_max_right _ _⟩
          · exact Or.inr hp
        · rw [if_neg hpd]
          exact hparent
    simp only []
    split
    · split
      · exact hmade
      · exact hmade
    · exact hparent

theorem unlocked_mkAll (n : Nat) {fs : FileSystem} (h : fs.Unlocked) (d : Str) : (mkAll n fs d).2.Unlocked := by
  induction n generalizing d with
  | zero => exact h
  | succ n ih =>
    rw [mkAll]
    split
    · exact h
    · simp only []
      split
      · split <;> exact (ih (dirname d)).mkdir d
      · exact ih (dirname d)

/-- A directory that `ensure_dir` says it made is there. -/
theorem fileExists_mkAll {n : Nat} {fs : FileSystem} {d : Str} (h : (mkAll (n + 1) fs d).1 = .ok ()) :
    (mkAll (n + 1) fs d).2.fileExists d = true := by
  rw [mkAll] at h ⊢
  by_cases hex : fs.fileExists d = true
  · rw [if_pos hex]
    exact hex
  rw [if_neg hex] at h ⊢
  simp only [] at h ⊢
  generalize mkAll n fs (dirname d) = parent at h ⊢
  cases hparent : parent.1 with
  | error e =>
    rw [hparent] at h
    cases h
  | raised x =>
    rw [hparent] at h
    cases h
  | ok u =>
    rw [hparent] at h
    simp only [] at h ⊢
    by_cases hthere : parent.2.fileExists d = true
    · simp [FileSystem.mkdir, hthere]
    · by_cases hup : parent.2.isDir (dirname d) = true
      · rw [FileSystem.mkdir_of_isDir (by simpa using hthere) hup]
        simp [FileSystem.fileExists, FileSystem.isDir_set_self]
      · have hcodes : str "ENOENT" ≠ str "EEXIST" := by decide
        simp [FileSystem.mkdir, hthere, hup, hcodes] at h

/-- One directory more, below one that has just been made. -/
theorem mkAll_child {n : Nat} {fs fs' : FileSystem} {d : Str} (hno : fs.fileExists d = false)
    (hup : mkAll n fs (dirname d) = (.ok (), fs')) (hno' : fs'.fileExists d = false)
    (hparent : fs'.isDir (dirname d) = true) : mkAll (n + 1) fs d = (.ok (), fs'.set d (some .dir)) := by
  rw [mkAll, hup]
  simp [hno, FileSystem.mkdir_of_isDir hno' hparent]

/-! ## Where objects are -/

theorem isComponent_digest (d : Digest) : IsComponent d.toStr ∧ IsComponent (d.toStr.take 2) := by
  have hslash : ∀ c ∈ d.toStr, c ≠ chr '/' := by
    rintro c hc rfl
    exact absurd ((digestCheck_eq_ok.1 d.2).2 _ hc) (by decide)
  have hlen := d.length_toStr
  refine ⟨⟨fun h => ?_, hslash⟩, fun h => ?_, fun c hc => hslash c (List.mem_of_mem_take hc)⟩
  · simp [h] at hlen
  · simpa [hlen] using congrArg List.length h

theorem pathFor_eq (t : ArtifactStore) (d : Digest) :
    t.pathFor d = intoDir t.root ++ d.toStr.take 2 ++ [chr '/'] ++ d.toStr ++ [chr '/'] ++ str "bundle.mlb" := by
  obtain ⟨hdigest, hshard⟩ := isComponent_digest d
  have hinner := concat_concat (a := t.root) (c := []) hshard.1 hshard.getLast?_ne
  rw [pathFor]
  rw [concat_concat hdigest.1 hdigest.getLast?_ne, show intoDir (concat t.root (d.toStr.take 2)) =
    concat (concat t.root (d.toStr.take 2)) [] from rfl, hinner]
  simp only [List.append_nil]

theorem length_pathFor (t : ArtifactStore) (d : Digest) :
    (t.pathFor d).length = (intoDir t.root).length + 78 := by
  have hlen := d.length_toStr
  rw [pathFor_eq]
  simp only [List.length_append, List.length_take, hlen, List.length_cons, List.length_nil]
  rfl

/-- Objects with different digests are at different paths. -/
theorem pathFor_inj {t : ArtifactStore} {d d' : Digest} (h : t.pathFor d = t.pathFor d') : d = d' := by
  rw [pathFor_eq, pathFor_eq] at h
  have h1 := List.append_inj_left' h rfl
  have h2 := List.append_inj_left' h1 rfl
  exact Checked.ext (List.append_inj_right' h2 (by rw [d.length_toStr, d'.length_toStr]))

theorem fileExists_pathFor (t : ArtifactStore) (fs : FileSystem) (d : Digest) :
    fs.fileExists (t.pathFor d) = (fs.node (t.pathFor d)).isSome := by
  have hlen := t.length_pathFor d
  exact fs.fileExists_of_length (by omega)

/-- The directory `put_if_absent` makes is not at the path of an object. -/
theorem node_ensureDir_pathFor (t : ArtifactStore) (fs : FileSystem) (d d' : Digest) :
    (ensureDir fs (dirname (t.pathFor d))).2.node (t.pathFor d') = fs.node (t.pathFor d') := by
  have hlen := t.length_pathFor d
  have hlen' := t.length_pathFor d'
  have hdir := length_dirname_lt (p := t.pathFor d) (by omega)
  rcases node_mkAll ((dirname (t.pathFor d)).length + 2) fs (dirname (t.pathFor d)) (t.pathFor d') with h | ⟨_, hle⟩
  · exact h
  · omega

/-! ## What `get` and `put_if_absent` do -/

theorem constantTimeEqual_digestOf {d : Digest} {b : Str} :
    constantTimeEqual d.toStr (digestOf b).toStr = true ↔ digestOf b = d := by
  rw [constantTimeEqual_iff]
  exact ⟨fun h => Checked.ext h.symm, fun h => by rw [h]⟩

theorem get_eq (t : ArtifactStore) (fs : FileSystem) (d : Digest) :
    t.get fs d = match fs.node (t.pathFor d) with
      | none => .error (Error.make .notFound .storageError (str "object not found"))
      | some (.file b) =>
        if digestOf b = d then .ok b
        else .error (Error.make .internal .storageError (str "digest mismatch on read (corrupt object)"))
      | some (.locked e) => .raised e
      | some .dir => .raised (.sysError (t.pathFor d ++ str ": Is a directory")) := by
  unfold get
  simp only [fileExists_pathFor, FileSystem.readFile]
  cases hnode : fs.node (t.pathFor d) with
  | none => simp
  | some n =>
    cases n with
    | dir => simp
    | locked e => simp
    | file b =>
      simp only [Option.isSome_some, Bool.not_true, Bool.false_eq_true, if_false, Outcome.ok_bind,
        ofString_toHex_hash, Outcome.getOk_ok, Bool.not_eq_true', ← Bool.not_eq_true, constantTimeEqual_digestOf]
      by_cases h : digestOf b = d
      · simp [h]
      · simp [h]

theorem get_eq_ok {t : ArtifactStore} {fs : FileSystem} {d : Digest} {b : Str} :
    t.get fs d = .ok b ↔ fs.node (t.pathFor d) = some (.file b) ∧ digestOf b = d := by
  rw [get_eq]
  constructor
  · intro h
    split at h
    · cases h
    · rename_i b' hnode
      split at h
      · rename_i hd
        cases h
        exact ⟨hnode, hd⟩
      · cases h
    · cases h
    · cases h
  · rintro ⟨hnode, hd⟩
    rw [hnode]
    simp [hd]

/-- An object that is there and cannot be opened as a file. -/
def Unreadable (t : ArtifactStore) (fs : FileSystem) (d : Digest) : Prop :=
  fs.node (t.pathFor d) = some .dir ∨ ∃ e, fs.node (t.pathFor d) = some (.locked e)

theorem get_raises {t : ArtifactStore} {fs : FileSystem} {d : Digest} :
    (t.get fs d).Raises ↔ t.Unreadable fs d := by
  rw [get_eq]
  unfold Unreadable
  split
  · rename_i h
    simp [h]
  · rename_i b h
    rw [h]
    split <;> simp
  · rename_i e h
    rw [h]
    simp [Outcome.Raises]
  · rename_i h
    rw [h]
    simp [Outcome.Raises]

/-- A put fails and leaves the objects alone, finds something at the path, or creates the object. -/
theorem putIfAbsent_cases (t : ArtifactStore) (fs : FileSystem) (d : Digest) (b : Str) :
    ((∀ r, (t.putIfAbsent fs d b).1 ≠ .ok r) ∧
      ∀ d', (t.putIfAbsent fs d b).2.node (t.pathFor d') = fs.node (t.pathFor d')) ∨
    ((t.putIfAbsent fs d b).1 = .ok .alreadyPresent ∧ fs.node (t.pathFor d) ≠ none ∧
      ∀ d', (t.putIfAbsent fs d b).2.node (t.pathFor d') = fs.node (t.pathFor d')) ∨
    ((t.putIfAbsent fs d b).1 = .ok .created ∧ digestOf b = d ∧
      ∀ d', (t.putIfAbsent fs d b).2.node (t.pathFor d') =
        if d' = d then some (.file b) else fs.node (t.pathFor d')) := by
  have hframe := t.node_ensureDir_pathFor fs d
  unfold putIfAbsent
  simp only [fileExists_pathFor, hframe, ofString_toHex_hash, Outcome.getOk_ok]
  cases hmade : (ensureDir fs (dirname (t.pathFor d))).1 with
  | error e => exact Or.inl ⟨fun r h => (by cases h), hframe⟩
  | raised x => exact Or.inl ⟨fun r h => (by cases h), hframe⟩
  | ok u =>
    simp only []
    by_cases hsome : (fs.node (t.pathFor d)).isSome = true
    · rw [if_pos hsome]
      exact Or.inr (Or.inl ⟨rfl, Option.isSome_iff_ne_none.1 hsome, hframe⟩)
    rw [if_neg hsome]
    by_cases hd : constantTimeEqual d.toStr (digestOf b).toStr = true
    · rw [if_neg (by simp [hd])]
      rcases FileSystem.writeFile_cases (ε := Error) (ensureDir fs (dirname (t.pathFor d))).2 (t.pathFor d) b with
        ⟨e, hw⟩ | hw
      · rw [hw]
        exact Or.inl ⟨fun r h => (by cases h), hframe⟩
      · rw [hw]
        refine Or.inr (Or.inr ⟨rfl, constantTimeEqual_digestOf.1 hd, fun d' => ?_⟩)
        rw [FileSystem.node_set]
        by_cases hdd : d' = d
        · rw [if_pos hdd, if_pos (by rw [hdd])]
        · rw [if_neg hdd, if_neg (fun h => hdd (pathFor_inj h)), hframe]
    · rw [if_pos (by simpa using hd)]
      exact Or.inl ⟨fun r h => (by cases h), hframe⟩

/-- A put leaves alone what stands anywhere else. -/
theorem node_putIfAbsent_of_some (t : ArtifactStore) {fs : FileSystem} (d : Digest) (b : Str) {p : Str} {n : Node}
    (hp : fs.node p = some n) (hne : p ≠ t.pathFor d) : (t.putIfAbsent fs d b).2.node p = some n := by
  have hmade : (ensureDir fs (dirname (t.pathFor d))).2.node p = some n := by
    rcases node_mkAll ((dirname (t.pathFor d)).length + 2) fs (dirname (t.pathFor d)) p with h | ⟨hnone, -⟩
    · exact h.trans hp
    · rw [hp] at hnone
      cases hnone
  unfold putIfAbsent
  simp only []
  repeat' split
  all_goals first
    | exact hmade
    | exact (FileSystem.node_writeFile_of_ne _ _ hne).trans hmade

theorem unlocked_putIfAbsent (t : ArtifactStore) {fs : FileSystem} (h : fs.Unlocked) (d : Digest) (b : Str) :
    (t.putIfAbsent fs d b).2.Unlocked := by
  have hmade := unlocked_mkAll ((dirname (t.pathFor d)).length + 2) h (dirname (t.pathFor d))
  unfold putIfAbsent
  simp only []
  repeat' split
  all_goals first
    | exact hmade
    | exact hmade.writeFile _ _

/-! ## The first put -/

theorem dirname_pathFor (t : ArtifactStore) (d : Digest) :
    dirname (t.pathFor d) = concat (concat t.root (d.toStr.take 2)) d.toStr := by
  obtain ⟨hne, hend⟩ := concat_component (concat t.root (d.toStr.take 2)) (isComponent_digest d).1
  exact dirname_concat hne hend ⟨by decide, by decide +kernel⟩

theorem dirFor_eq (t : ArtifactStore) (d : Digest) : t.dirFor d = dirname (t.pathFor d) := (t.dirname_pathFor d).symm

theorem pathFor_eq_dirFor (t : ArtifactStore) (d : Digest) : t.pathFor d = t.dirFor d ++ [chr '/'] ++ str "bundle.mlb" := by
  obtain ⟨hne, hend⟩ := concat_component (concat t.root (d.toStr.take 2)) (isComponent_digest d).1
  exact if_neg (by simp [hne, hend])

theorem length_dirFor (t : ArtifactStore) (d : Digest) : (t.dirFor d).length = (intoDir t.root).length + 67 := by
  have hlen := t.length_pathFor d
  rw [pathFor_eq_dirFor, List.length_append, List.length_append] at hlen
  have hname : (str "bundle.mlb").length = 10 := rfl
  rw [hname, List.length_singleton] at hlen
  omega

theorem dirFor_inj {t : ArtifactStore} {d d' : Digest} (h : t.dirFor d = t.dirFor d') : d = d' := by
  apply pathFor_inj (t := t)
  rw [pathFor_eq_dirFor, pathFor_eq_dirFor, h]

theorem dirFor_ne_pathFor (t : ArtifactStore) (d d' : Digest) : t.dirFor d ≠ t.pathFor d' := by
  intro h
  have hlen := congrArg List.length h
  rw [length_dirFor, length_pathFor] at hlen
  omega

/-- A put that returns has the directory of its object. -/
theorem node_dirFor_of_put {t : ArtifactStore} {fs : FileSystem} {d : Digest} {b : Str} {r : Put}
    (h : (t.putIfAbsent fs d b).1 = .ok r) : (t.putIfAbsent fs d b).2.node (t.dirFor d) ≠ none := by
  have hmade : (ensureDir fs (dirname (t.pathFor d))).1 = .ok () := by
    unfold putIfAbsent at h
    simp only [] at h
    split at h
    · cases h
    · cases h
    · assumption
  have hlen := t.length_dirFor d
  have hthere := fileExists_mkAll (n := (dirname (t.pathFor d)).length + 1) hmade
  rw [← dirFor_eq, FileSystem.fileExists_of_length _ (by omega), Option.isSome_iff_exists] at hthere
  obtain ⟨n, hn⟩ := hthere
  have hdir : (ensureDir fs (dirname (t.pathFor d))).2.node (t.dirFor d) = some n := by
    rw [← dirFor_eq]
    exact hn
  have hput : (t.putIfAbsent fs d b).2.node (t.dirFor d) = some n := by
    unfold putIfAbsent
    simp only []
    repeat' split
    all_goals first
      | exact hdir
      | exact (FileSystem.node_writeFile_of_ne _ _ (t.dirFor_ne_pathFor d d)).trans hdir
  rw [hput]
  exact Option.some_ne_none n

theorem pathFor_eq_concat (t : ArtifactStore) (d : Digest) : ∃ name, name ≠ [] ∧ t.pathFor d = concat t.root name := by
  refine ⟨d.toStr.take 2 ++ ([chr '/'] ++ (d.toStr ++ ([chr '/'] ++ str "bundle.mlb"))), by simp, ?_⟩
  rw [pathFor_eq, concat_eq_append]
  simp only [List.append_assoc]

theorem node_pathFor_of_emptyBelow {t : ArtifactStore} {fs : FileSystem} (hempty : fs.EmptyBelow t.root) (d : Digest) :
    fs.node (t.pathFor d) = none := by
  obtain ⟨name, hne, heq⟩ := t.pathFor_eq_concat d
  rw [heq]
  exact hempty name hne

/-- `make` makes the root and its parents, nothing below. -/
theorem node_make_below {fs : FileSystem} {root name : Str} (hempty : fs.EmptyBelow root) (hne : name ≠ [])
    (hlen : 2 ≤ (concat root name).length) : (make fs root).2.node (concat root name) = none := by
  have hnone := hempty name hne
  have hroot := length_le_intoDir root
  have hpos := List.length_pos_iff.2 hne
  rcases node_mkAll (root.length + 2) fs root (concat root name) with h | ⟨_, hle⟩
  · exact h.trans hnone
  · rw [concat_eq_append, List.length_append] at hlen hle
    omega

/-- In an empty store the two directories above an object can be made. -/
theorem ensureDir_pathFor {t : ArtifactStore} {fs : FileSystem} (d : Digest) (hne : t.root ≠ [])
    (hend : t.root.getLast? ≠ some (chr '/')) (hdir : fs.isDir t.root = true) (hempty : fs.EmptyBelow t.root) :
    ∃ fs' : FileSystem, ensureDir fs (dirname (t.pathFor d)) = (.ok (), fs') ∧
      fs'.isDir (dirname (t.pathFor d)) = true := by
  have hlen := d.length_toStr
  obtain ⟨hdigest, hshard⟩ := isComponent_digest d
  rw [dirname_pathFor]
  set shardDir := concat t.root (d.toStr.take 2) with hshardDir
  set objectDir := concat shardDir d.toStr with hobjectDir
  have hobject : objectDir = concat t.root (d.toStr.take 2 ++ [chr '/'] ++ d.toStr) := by
    rw [hobjectDir, hshardDir, concat_concat hshard.1 hshard.getLast?_ne, concat_eq_append]
    simp only [List.append_assoc]
  have hshardLen : 2 ≤ shardDir.length := by
    rw [hshardDir, concat_eq_append]
    simp [hlen]
  have hlt : shardDir.length < objectDir.length := by
    rw [hobject, hshardDir, concat_eq_append, concat_eq_append]
    simp [hlen]
  have hnoShard : fs.fileExists shardDir = false := by
    rw [fs.fileExists_of_length hshardLen, hempty _ hshard.1]
    rfl
  have hnoObject : fs.node objectDir = none := by
    rw [hobject]
    exact hempty _ (by simp)
  have hmkShard : mkAll (objectDir.length + 1) fs shardDir = (.ok (), fs.set shardDir (some .dir)) := by
    have hroot : dirname shardDir = t.root := dirname_concat hne hend hshard
    obtain ⟨n, hn⟩ : ∃ n, objectDir.length = n + 1 := ⟨objectDir.length - 1, by omega⟩
    refine mkAll_child hnoShard ?_ hnoShard (by rwa [hroot])
    rw [hroot, hn]
    simp [mkAll, FileSystem.fileExists, hdir]
  have hparent : dirname objectDir = shardDir :=
    dirname_concat (concat_component t.root hshard).1 (concat_component t.root hshard).2 hdigest
  refine ⟨(fs.set shardDir (some .dir)).set objectDir (some .dir), mkAll_child ?_ ?_ ?_ ?_,
    FileSystem.isDir_set_self _ _⟩
  · rw [fs.fileExists_of_length (by omega), hnoObject]
    rfl
  · rw [hparent]
    exact hmkShard
  · have hdiff : objectDir ≠ shardDir := fun h => by simp [h] at hlt
    rw [FileSystem.fileExists_of_length _ (by omega), FileSystem.node_set, if_neg hdiff, hnoObject]
    rfl
  · rw [hparent]
    exact FileSystem.isDir_set_self _ _

/-- A first put into an empty store creates the object. -/
theorem putIfAbsent_created (t : ArtifactStore) (fs : FileSystem) (b : Str) (hne : t.root ≠ [])
    (hend : t.root.getLast? ≠ some (chr '/')) (hdir : fs.isDir t.root = true) (hempty : fs.EmptyBelow t.root) :
    (t.putIfAbsent fs (digestOf b) b).1 = .ok .created := by
  obtain ⟨fs', hmade, hisDir⟩ := ensureDir_pathFor (digestOf b) hne hend hdir hempty
  have hnone := t.node_ensureDir_pathFor fs (digestOf b) (digestOf b)
  rw [hmade, node_pathFor_of_emptyBelow hempty] at hnone
  have hwrite := FileSystem.writeFile_of_isDir (ε := Error) b hnone hisDir
  have hequal : constantTimeEqual (digestOf b).toStr (digestOf b).toStr = true := constantTimeEqual_digestOf.2 rfl
  have hno : fs'.fileExists (t.pathFor (digestOf b)) = false := by
    rw [fileExists_pathFor, hnone]
    rfl
  simp only [putIfAbsent, hmade, hno, ofString_toHex_hash, Outcome.getOk_ok, hequal, hwrite, Bool.false_eq_true,
    if_false, Bool.not_true, Outcome.ok_bind]

end ArtifactStore
end MirageLambda
