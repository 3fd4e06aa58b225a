import MirageLambda.Lib.KeySort
import MirageLambda.Common.BundleGrammar

/-!
# Decode undoes encode

`Bundle.write` sorts the entries, recomputes their digests and the footer; `Bundle.parse` checks all
of that again. `parse_write` composes the two. Of Yojson it uses one fact about each of the two texts
that are written: reading the canonical text of a value gives the tree of the sorted value.
-/

namespace MirageLambda
open OCaml

namespace Bundle

/-- The order `sort` uses, as a relation. -/
def PathLe (a b : ModuleEntry) : Prop := compare a.path.toStr b.path.toStr ≠ .gt

instance : DecidableRel PathLe := fun a b => by unfold PathLe; infer_instance

/-- With distinct paths the sorted entries are strictly sorted. -/
theorem sortByPath_pairwise {mods : List ModuleEntry} (hnodup : (mods.map (·.path)).Nodup) :
    (sortByPath mods).Pairwise PathLt := by
  have hkeys : (mods.map fun e => e.path.toStr).Nodup := by
    have hinj : Function.Injective fun p : ModulePath => p.toStr := fun _ _ => Checked.ext
    have h := hnodup.map hinj
    rwa [List.map_map] at h
  exact KeySort.pairwise_insertionSort hkeys

/-- An entry with its own digest: the writer ignores the one it is given. -/
def withDigest (e : ModuleEntry) : ModuleEntry := { e with digest := Sha256.hash e.content }

theorem write_eq (header : CanonicalJson) (manifest : Manifest) (mj : CanonicalJson) (mods : List ModuleEntry) :
    write header manifest mj mods =
      bodyOf header.toString mj.toString ((sortByPath mods).map withDigest) ++
        Sha256.hash (bodyOf header.toString mj.toString ((sortByPath mods).map withDigest)) := by
  have hbody : bodyOf header.toString mj.toString ((sortByPath mods).map withDigest) =
      magic ++ be32 header.toString.length ++ be32 mj.toString.length ++ be32 (sortByPath mods).length ++
        header.toString ++ mj.toString ++ (sortByPath mods).flatMap moduleBytes := by
    simp only [bodyOf, preamble, List.length_map, List.flatMap_map]
    rfl
  rw [hbody]
  rfl

/-- What Yojson has to do with the text of one value. -/
def ReadsBack (Y : Yojson) (x : CanonicalJson) : Prop :=
  x.FloatFree → Y.fromString x.toString = .ok (CanonicalJson.jsonTree x.sort)

/-- What `parse` makes of a written bundle. -/
def written (header mj : CanonicalJson) (manifest m : Manifest) (mods : List ModuleEntry) : Validated :=
  let es := (sortByPath mods).map withDigest
  { headerJson := header.sort, manifest := m, manifestJson := mj.sort, modules := es
    footerDigest := Sha256.hash (bodyOf header.toString mj.toString es), raw := write header manifest mj mods }

section
variable (Y : Yojson) (header mj : CanonicalJson) (manifest m : Manifest) (mods : List ModuleEntry)

theorem parsed_written (hhFloat : header.FloatFree) (hmFloat : mj.FloatFree)
    (hYh : ReadsBack Y header) (hYm : ReadsBack Y mj)
    (hnodup : (mods.map (·.path)).Nodup) (hpath : ∀ e ∈ mods, e.path.toStr.length ≤ 1024)
    (hcount : mods.length ≤ maxModuleCount) (hcontent : ∀ e ∈ mods, e.content.length ≤ maxModuleBytes)
    (htotal : (mods.map fun e => e.content.length).sum ≤ maxTotalBytes)
    (hhLen : header.toString.length < 2 ^ 32) (hmLen : mj.toString.length < 2 ^ 32)
    (hparse : Manifest.parse (CanonicalJson.jsonTree mj.sort) = .ok m) :
    Parsed Y (write header manifest mj mods) header.toString mj.toString (written header mj manifest m mods) := by
  have hperm : (sortByPath mods).Perm mods := List.perm_insertionSort PathLe mods
  have hpair : ((sortByPath mods).map withDigest).Pairwise PathLt :=
    List.pairwise_map.2 (sortByPath_pairwise hnodup)
  refine ⟨hhLen, hmLen, ?_, ?_, ?_, List.isChain_iff_pairwise.2 hpair, ?_, rfl, write_eq _ _ _ _, rfl⟩
  · rw [written, List.length_map, hperm.length_eq]
    exact hcount
  · exact parseJson_eq_ok.2 ⟨⟨_, hYh hhFloat, CanonicalJson.ofYojson_jsonTree _⟩, _, hYm hmFloat, hparse,
      CanonicalJson.ofYojson_jsonTree _⟩
  · intro e he
    obtain ⟨e', he', rfl⟩ := List.mem_map.1 he
    have hmem : e' ∈ mods := hperm.mem_iff.1 he'
    exact ⟨hpath e' hmem, hcontent e' hmem, rfl⟩
  · have hsum := (hperm.map fun e => e.content.length).sum_eq
    rw [written, totalBytes_eq_sum, List.map_map, Function.comp_def]
    exact hsum.trans_le htotal

/-- **Decode undoes encode.** For entries in any order with distinct paths and within the caps, and a
manifest that `Manifest.parse` accepts as `m`, the written bundle is accepted: its modules are the
entries sorted by path with the digests of their contents, header and manifest are the sorted values. -/
theorem parse_write (hhFloat : header.FloatFree) (hmFloat : mj.FloatFree)
    (hYh : ReadsBack Y header) (hYm : ReadsBack Y mj)
    (hnodup : (mods.map (·.path)).Nodup) (hpath : ∀ e ∈ mods, e.path.toStr.length ≤ 1024)
    (hcount : mods.length ≤ maxModuleCount) (hcontent : ∀ e ∈ mods, e.content.length ≤ maxModuleBytes)
    (htotal : (mods.map fun e => e.content.length).sum ≤ maxTotalBytes)
    (hhLen : header.toString.length < 2 ^ 32) (hmLen : mj.toString.length < 2 ^ 32)
    (hparse : Manifest.parse (CanonicalJson.jsonTree mj.sort) = .ok m) :
    ∃ v, parse Y (write header manifest mj mods) = .ok v ∧
      v.modules.Pairwise PathLt ∧ v.modules.Perm (mods.map withDigest) ∧
      v.headerJson = header.sort ∧ v.manifestJson = mj.sort ∧ v.manifest = m ∧
      v.raw = write header manifest mj mods := by
  have hperm : (sortByPath mods).Perm mods := List.perm_insertionSort PathLe mods
  have hpair : ((sortByPath mods).map withDigest).Pairwise PathLt :=
    List.pairwise_map.2 (sortByPath_pairwise hnodup)
  have hwritten := parsed_written Y header mj manifest m mods hhFloat hmFloat hYh hYm hnodup hpath hcount hcontent
    htotal hhLen hmLen hparse
  exact ⟨_, parse_eq_ok.2 ⟨_, _, hwritten⟩, hpair, hperm.map withDigest, rfl, rfl, rfl, rfl⟩

end

/-! ### A bundle with two modules, given in the wrong order -/

def sampleIo : CanonicalJson :=
  .object [(str "maxBytes", .int 1024), (str "format", .string (str "json"))]

def sampleLimits : CanonicalJson :=
  .object
    [(str "jsHeapBytes", .int 8388608), (str "nativeOverheadBytes", .int 1048576),
     (str "stackBytes", .int 262144), (str "timeoutMs", .int 1000), (str "cpuMs", .int 500),
     (str "maxHostCalls", .int 16), (str "maxPendingPromises", .int 8), (str "maxLogBytes", .int 4096),
     (str "maxOutboundBytes", .int 4096), (str "maxRedirects", .int 0), (str "maxChildInvocations", .int 0)]

def sampleManifestJson : CanonicalJson :=
  .object
    [(str "schemaVersion", .int 1), (str "name", .string (str "hello")),
     (str "entrypoint", .string (str "main.js")), (str "export", .string (str "default")),
     (str "runtime", .string (str "quickjs-2026-06-04")), (str "input", sampleIo), (str "output", sampleIo),
     (str "limits", sampleLimits), (str "capabilities", .object [(str "logs", .bool true)]),
     (str "retry", .object [(str "mode", .string (str "never"))])]

def samplePath (s : Str) (h : modulePathCheck s = .ok ()) : ModulePath := ⟨s, h⟩

def sampleTenant : TenantId := ⟨str "acme", by decide⟩
def sampleFunction : FunctionName := ⟨str "hello", by decide⟩

def sampleManifest : Manifest :=
  { schemaVersion := 1
    name := sampleFunction
    entrypoint := samplePath (str "main.js") (by decide)
    exportName := str "default"
    runtime := str "quickjs-2026-06-04"
    input := { format := str "json", maxBytes := 1024 }
    output := { format := str "json", maxBytes := 1024 }
    limits :=
      { jsHeapBytes := 8388608, nativeOverheadBytes := 1048576, stackBytes := 262144, timeoutMs := 1000,
        cpuMs := 500, maxHostCalls := 16, maxPendingPromises := 8, maxLogBytes := 4096,
        maxOutboundBytes := 4096, maxRedirects := 0, maxChildInvocations := 0 }
    capabilities := { kv := [], http := [], clock := .none, random := .none, logs := true, invoke := [] }
    retry := .never }

def sampleModules : List ModuleEntry :=
  [{ path := samplePath (str "main.js") (by decide), content := str "import './a.js'", digest := [] },
   { path := samplePath (str "a.js") (by decide), content := str "1", digest := str "stale" }]

theorem sample_manifest_parses :
    Manifest.parse (CanonicalJson.jsonTree sampleManifestJson.sort) = .ok sampleManifest := by
  decide +kernel

/-- A reader for the two texts of the sample. -/
def sampleYojson : Yojson where
  fromString s :=
    if s = CanonicalJson.toString (.object []) then .ok (.assoc [])
    else if s = sampleManifestJson.toString then .ok (CanonicalJson.jsonTree sampleManifestJson.sort)
    else .error (str "Line 1, bytes 0-1: Invalid token")
  toString _ := []
  prettyToString _ := []

theorem sample_floatFree : sampleManifestJson.FloatFree := by
  simp [sampleManifestJson, sampleIo, sampleLimits]

theorem sample_readsBack : ReadsBack sampleYojson (.object []) ∧ ReadsBack sampleYojson sampleManifestJson := by
  have hne : sampleManifestJson.toString ≠ CanonicalJson.toString (.object []) := by decide +kernel
  refine ⟨fun _ => ?_, fun _ => ?_⟩
  · simp [sampleYojson, CanonicalJson.sort, CanonicalJson.sortFields, CanonicalJson.sortMembers,
      CanonicalJson.jsonTree, CanonicalJson.jsonTreeFields]
  · simp [sampleYojson, hne]

theorem length_sampleManifestJson_lt : sampleManifestJson.toString.length < 2 ^ 32 := by
  decide +kernel

theorem parse_write_sample :
    ∃ v, parse sampleYojson (write (.object []) sampleManifest sampleManifestJson sampleModules) = .ok v ∧
      v.modules.Pairwise PathLt ∧ v.modules.Perm (sampleModules.map withDigest) ∧
      v.headerJson = CanonicalJson.sort (.object []) ∧ v.manifestJson = sampleManifestJson.sort ∧
      v.manifest = sampleManifest ∧
      v.raw = write (.object []) sampleManifest sampleManifestJson sampleModules :=
  parse_write sampleYojson (.object []) sampleManifestJson sampleManifest sampleManifest sampleModules
    (by simp) sample_floatFree sample_readsBack.1 sample_readsBack.2 (by decide) (by decide) (by decide) (by decide)
    (by decide) (by decide) length_sampleManifestJson_lt sample_manifest_parses

def sampleBundle : Str := write (.object []) sampleManifest sampleManifestJson sampleModules

/-- What `parse` makes of the sample bundle. -/
def sampleValidated : Validated := written (.object []) sampleManifestJson sampleManifest sampleManifest sampleModules

/-- The sample bundle, for any reader that reads its two texts back. -/
theorem parsed_sampleBundle_of_readsBack {Y : Yojson} (hheader : ReadsBack Y (.object []))
    (hmanifest : ReadsBack Y sampleManifestJson) :
    Parsed Y sampleBundle (CanonicalJson.toString (.object [])) sampleManifestJson.toString sampleValidated :=
  parsed_written Y (.object []) sampleManifestJson sampleManifest sampleManifest sampleModules
    (by simp) sample_floatFree hheader hmanifest (by decide) (by decide) (by decide) (by decide)
    (by decide) (by decide) length_sampleManifestJson_lt sample_manifest_parses

theorem parsed_sampleBundle :
    Parsed sampleYojson sampleBundle (CanonicalJson.toString (.object [])) sampleManifestJson.toString
      sampleValidated :=
  parsed_sampleBundle_of_readsBack sample_readsBack.1 sample_readsBack.2

theorem parse_sampleBundle : ∃ v, parse sampleYojson sampleBundle = .ok v :=
  ⟨sampleValidated, parse_eq_ok.2 ⟨_, _, parsed_sampleBundle⟩⟩

end Bundle
end MirageLambda
