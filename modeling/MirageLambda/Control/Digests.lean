import MirageLambda.Control.WorkerPool

/-!
# From contents to files (common/bundle.ml:107, common/ids.ml:114, control/artifact_store.ml:26)

A content is hashed, the hash is printed, the text is read back as a digest, and the digest names a file. No
step fails and no step forgets: `to_hex` is injective, every digest has a path of its own, and the
`Result.get_ok` around `Digest.of_string` in the store and in the worker pool always finds a digest. The
functions with a suffix `Digested` are the ones of the source with that digest put in for the call;
`digest_plumbing` says that they are the same functions.
-/

namespace MirageLambda
open OCaml

/-! ## Hexadecimal text -/

theorem parseDigit_hexDigit {n : Nat} (h : n < 16) : parseDigit (hexDigit n) = some n := by
  interval_cases n <;> decide

theorem hexDigit_inj {m n : Nat} (hm : m < 16) (hn : n < 16) (h : hexDigit m = hexDigit n) : m = n := by
  have hread := parseDigit_hexDigit hm
  rw [h, parseDigit_hexDigit hn] at hread
  exact (Option.some.inj hread).symm

/-- **Different byte strings print differently.** -/
theorem toHex_injective : Function.Injective Sha256.toHex := by
  intro a b h
  induction a generalizing b with
  | nil =>
    cases b with
    | nil => rfl
    | cons c cs => cases h
  | cons c cs ih =>
    cases b with
    | nil => cases h
    | cons d ds =>
      simp only [Sha256.toHex, List.flatMap_cons, List.cons_append, List.nil_append, List.cons.injEq] at h
      obtain ⟨hhigh, hlow, hrest⟩ := h
      have hc := c.toNat_lt
      have hd := d.toNat_lt
      have hdiv := hexDigit_inj (by omega) (by omega) hhigh
      have hmod := hexDigit_inj (by omega) (by omega) hlow
      have hbyte : c.toNat = d.toNat := by omega
      rw [UInt8.toNat_inj.1 hbyte, ih hrest]

theorem digestOf_eq_iff {m m' : Str} : digestOf m = digestOf m' ↔ Sha256.hash m = Sha256.hash m' := by
  constructor
  · intro h
    exact toHex_injective (congrArg Checked.toStr h)
  · intro h
    exact Checked.ext (congrArg Sha256.toHex h)

namespace ArtifactStore

theorem pathFor_injective (t : ArtifactStore) : Function.Injective t.pathFor := fun _ _ h => pathFor_inj h

/-! ## Without `Result.get_ok` -/

/-- `put_if_absent` (artifact_store.ml:36). -/
def putIfAbsentDigested (t : ArtifactStore) (fs : FileSystem) (digestBytes : Digest) (bytes : Str) :
    Outcome Error Put × FileSystem :=
  let path := t.pathFor digestBytes
  let made := ensureDir fs (dirname path)
  match made.1 with
  | .error e => (.error e, made.2)
  | .raised x => (.raised x, made.2)
  | .ok () =>
    let fs := made.2
    if fs.fileExists path then (.ok .alreadyPresent, fs)
    else if !constantTimeEqual digestBytes.toStr (digestOf bytes).toStr then
      (.error (Error.make .invalidRequest .packageError (str "digest mismatch on ingest")), fs)
    else
      let written := fs.writeFile path bytes
      (written.1 >>= fun _ => .ok .created, written.2)

/-- `get` (artifact_store.ml:56). -/
def getDigested (t : ArtifactStore) (fs : FileSystem) (digestBytes : Digest) : Outcome Error Str :=
  let path := t.pathFor digestBytes
  if !fs.fileExists path then
    .error (Error.make .notFound .storageError (str "object not found"))
  else do
    let buf ← fs.readFile path
    if !constantTimeEqual digestBytes.toStr (digestOf buf).toStr then
      .error (Error.make .internal .storageError (str "digest mismatch on read (corrupt object)"))
    else .ok buf

theorem putIfAbsent_eq_digested (t : ArtifactStore) (fs : FileSystem) (d : Digest) (bytes : Str) :
    t.putIfAbsent fs d bytes = t.putIfAbsentDigested fs d bytes := by
  unfold putIfAbsent putIfAbsentDigested
  dsimp only
  obtain ⟨made, fs'⟩ := ensureDir fs (dirname (t.pathFor d))
  cases made with
  | ok u => simp only [ofString_toHex_hash, Outcome.getOk_ok]
  | error e => rfl
  | raised x => rfl

theorem get_eq_digested (t : ArtifactStore) (fs : FileSystem) (d : Digest) : t.get fs d = t.getDigested fs d := by
  unfold get getDigested
  simp only [ofString_toHex_hash, Outcome.getOk_ok, Outcome.ok_bind]

end ArtifactStore

/-- Steps 1 to 3 of `run_one` (worker_pool.ml:30-35). -/
def fetchBundleDigested (Y : Yojson) (store : ArtifactStore) (fs : FileSystem) (registry : Registry)
    (tenant : TenantId) (functionName : FunctionName) (qualifier : Qualifier) : Outcome Error Bundle.Validated := do
  let revId ← registry.resolve tenant functionName qualifier
  let bundleBytes ← store.get fs revId
  Bundle.parse Y bundleBytes

/-- **The digest plumbing never raises and loses nothing.** -/
theorem digest_plumbing :
    (∀ m, ∃ d, Digest.ofString (Sha256.toHex (Sha256.hash m)) = .ok d ∧ d.toStr = Sha256.toHex (Sha256.hash m)) ∧
    Function.Injective Sha256.toHex ∧
    (∀ t : ArtifactStore, Function.Injective t.pathFor ∧
      ∀ m m', t.pathFor (digestOf m) = t.pathFor (digestOf m') ↔ Sha256.hash m = Sha256.hash m') ∧
    (∀ (t : ArtifactStore) fs d bytes, t.putIfAbsent fs d bytes = t.putIfAbsentDigested fs d bytes) ∧
    (∀ (t : ArtifactStore) fs d, t.get fs d = t.getDigested fs d) ∧
    ∀ Y store fs registry tenant fn q, fetchBundle Y store fs registry tenant fn q =
      fetchBundleDigested Y store fs registry tenant fn q := by
  refine ⟨fun m => ⟨digestOf m, ofString_toHex_hash m, rfl⟩, toHex_injective, fun t => ⟨t.pathFor_injective, ?_⟩,
    ArtifactStore.putIfAbsent_eq_digested, ArtifactStore.get_eq_digested, ?_⟩
  · intro m m'
    rw [t.pathFor_injective.eq_iff, digestOf_eq_iff]
  · intro Y store fs registry tenant fn q
    exact fetchBundle_eq

end MirageLambda
