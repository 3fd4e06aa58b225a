import MirageLambda.Common.BundleRoundtrip
import MirageLambda.Common.CanonicalText

/-!
# Encode after decode (common/bundle.ml:168, 283)

`Bundle.parse` checks the order of the modules, their digests and the exact lengths, so all of that has one
spelling. It does not compare the texts of header and manifest with the canonical texts of what it reads from
them. `write_parse_iff` says that those two texts are all that can differ.
-/

namespace MirageLambda
open OCaml

namespace Bundle

/-! ## The two texts of a file -/

/-- The `u32` at `off`. -/
def lengthField (s : Str) (off : Nat) : Nat :=
  match readU32 s off with
  | .ok n => n
  | _ => 0

/-- The header text: as many bytes as the length field at 4 says, from 16 on. -/
def headerText (s : Str) : Str := (s.drop 16).take (lengthField s 4)

/-- The manifest text behind it, its length at 8. -/
def manifestText (s : Str) : Str := (s.drop (16 + lengthField s 4)).take (lengthField s 8)

/-- A text is the canonical spelling of what is read from it. -/
def Spelled (Y : Yojson) (text : Str) : Prop :=
  ∃ j x, Y.fromString text = .ok j ∧ CanonicalJson.ofYojson j = .ok x ∧ x.toString = text

theorem Parsed.lengthFields {Y : Yojson} {s h m : Str} {v : Validated} (hP : Parsed Y s h m v) :
    lengthField s 4 = h.length ∧ lengthField s 8 = m.length := by
  have hseg : SegAt s 0 (bodyOf h m v.modules) := by
    rw [hP.bytes]
    exact segAt_of_append
  obtain ⟨_, h4, h8, _⟩ := segAt_preamble.1 (segAt_append.1 hseg).1
  have hread4 := readU32_eq_ok.2 ⟨hP.header_lt, h4⟩
  have hread8 := readU32_eq_ok.2 ⟨hP.manifest_lt, h8⟩
  constructor
  · rw [lengthField, hread4]
  · rw [lengthField, hread8]

theorem Parsed.texts {Y : Yojson} {s h m : Str} {v : Validated} (hP : Parsed Y s h m v) :
    headerText s = h ∧ manifestText s = m := by
  have hseg : SegAt s 0 (bodyOf h m v.modules) := by
    rw [hP.bytes]
    exact segAt_of_append
  obtain ⟨_, _, _, _, hh, hm⟩ := segAt_preamble.1 (segAt_append.1 hseg).1
  obtain ⟨h4, h8⟩ := hP.lengthFields
  constructor
  · rw [headerText, h4]
    exact hh.2
  · rw [manifestText, h4, h8]
    exact hm.2

/-- The texts are spelled canonically exactly when they are the ones the writer prints. -/
theorem Parsed.spelled_iff {Y : Yojson} {s h m : Str} {v : Validated} (hP : Parsed Y s h m v) :
    (Spelled Y h ↔ v.headerJson.toString = h) ∧ (Spelled Y m ↔ v.manifestJson.toString = m) := by
  obtain ⟨⟨j, hj, hcj⟩, j', hj', _, hmj⟩ := parseJson_eq_ok.1 hP.json
  have hunique : ∀ {text j x}, Y.fromString text = .ok j → CanonicalJson.ofYojson j = .ok x →
      (Spelled Y text ↔ x.toString = text) := by
    intro text j x hread hof
    constructor
    · rintro ⟨j₁, x₁, hread₁, hof₁, hx⟩
      rw [hread, Except.ok.injEq] at hread₁
      subst hread₁
      rw [hof, Outcome.ok.injEq] at hof₁
      subst hof₁
      exact hx
    · intro hx
      exact ⟨j, x, hread, hof, hx⟩
  exact ⟨hunique hj hcj, hunique hj' hmj⟩

/-! ## Comparing two bodies -/

theorem be32_mod {a b : Nat} (h : be32 a = be32 b) : a % 2 ^ 32 = b % 2 ^ 32 := by
  unfold be32 at h
  simp only [List.cons.injEq, and_true, eq_ofNat_iff, UInt8.toNat_ofNat', Nat.shiftRight_eq_div_pow] at h
  omega

/-- Two files with the same modules are equal only if their texts are: the length fields give the lengths
modulo `2^32`, the length of the file gives their sum. -/
theorem bodyOf_append_inj {h m h' m' f f' : Str} {es : List ModuleEntry} (hh : h.length < 2 ^ 32)
    (hm : m.length < 2 ^ 32) (hf : f.length = f'.length)
    (heq : bodyOf h m es ++ f = bodyOf h' m' es ++ f') : h = h' ∧ m = m' := by
  have hlen := congrArg List.length heq
  simp only [bodyOf, preamble, List.length_append, length_be32] at hlen
  simp only [bodyOf, preamble, List.append_assoc] at heq
  obtain ⟨_, heq⟩ := List.append_inj heq rfl
  obtain ⟨h4, heq⟩ := List.append_inj heq rfl
  obtain ⟨h8, heq⟩ := List.append_inj heq rfl
  obtain ⟨_, heq⟩ := List.append_inj heq rfl
  have hmod4 := be32_mod h4
  have hmod8 := be32_mod h8
  obtain ⟨hheader, heq⟩ := List.append_inj heq (by omega)
  obtain ⟨hmanifest, _⟩ := List.append_inj heq (by omega)
  exact ⟨hheader, hmanifest⟩

/-! ## What `write` makes of a parsed file -/

/-- The modules of a parsed file are sorted and carry their own digests. -/
theorem Parsed.sorted_modules {Y : Yojson} {s h m : Str} {v : Validated} (hP : Parsed Y s h m v) :
    (sortByPath v.modules).map withDigest = v.modules := by
  have hle : v.modules.Pairwise PathLe := by
    refine ((List.isChain_iff_pairwise (R := PathLt)).1 hP.sorted).imp ?_
    intro a b hlt hgt
    rw [hlt] at hgt
    cases hgt
  have hsort : sortByPath v.modules = v.modules := List.Pairwise.insertionSort_eq (r := PathLe) hle
  rw [hsort, List.map_congr_left (g := id), List.map_id]
  intro e he
  obtain ⟨path, content, digest⟩ := e
  simp only [withDigest, id_eq, ModuleEntry.mk.injEq, true_and]
  exact (hP.fits _ he).digest.symm

theorem Parsed.write_eq_iff {Y : Yojson} {s h m : Str} {v : Validated} (hP : Parsed Y s h m v) :
    write v.headerJson v.manifest v.manifestJson v.modules = s ↔
      v.headerJson.toString = h ∧ v.manifestJson.toString = m := by
  rw [write_eq, hP.sorted_modules]
  constructor
  · intro heq
    have hs := hP.bytes
    rw [hP.footer] at hs
    rw [hs] at heq
    obtain ⟨hh, hm⟩ := bodyOf_append_inj hP.header_lt hP.manifest_lt (by simp) heq.symm
    exact ⟨hh.symm, hm.symm⟩
  · rintro ⟨hh, hm⟩
    rw [hh, hm, ← hP.footer]
    exact hP.bytes.symm

theorem write_parse_eq_iff {Y : Yojson} {s : Str} {v : Validated} (hv : parse Y s = .ok v) :
    write v.headerJson v.manifest v.manifestJson v.modules = s ↔
      Spelled Y (headerText s) ∧ Spelled Y (manifestText s) := by
  obtain ⟨h, m, hP⟩ := parse_eq_ok.1 hv
  obtain ⟨hh, hm⟩ := hP.texts
  rw [hh, hm, hP.write_eq_iff, hP.spelled_iff.1, hP.spelled_iff.2]

/-- **Encode after decode.** Writing the parts of an accepted file gives the file back exactly when its
header text and its manifest text are canonical spellings. Two accepted files with such texts, the same
modules, and headers and manifests that are equal up to member order, are the same file and have the same
digest. -/
theorem write_parse_iff (Y : Yojson) (s : Str) (v : Validated) (hv : parse Y s = .ok v) :
    (write v.headerJson v.manifest v.manifestJson v.modules = s ↔
      Spelled Y (headerText s) ∧ Spelled Y (manifestText s)) ∧
    ∀ s' v', parse Y s' = .ok v' → Spelled Y (headerText s) → Spelled Y (manifestText s) →
      Spelled Y (headerText s') → Spelled Y (manifestText s') →
      v.headerJson.DistinctKeys → v.manifestJson.DistinctKeys →
      v.headerJson.Reordered v'.headerJson → v.manifestJson.Reordered v'.manifestJson →
      v.modules = v'.modules → s = s' ∧ v.footerDigest = v'.footerDigest := by
  refine ⟨write_parse_eq_iff hv, ?_⟩
  intro s' v' hv' hsh hsm hsh' hsm' hkh hkm hrh hrm hmods
  have hs := (write_parse_eq_iff hv).2 ⟨hsh, hsm⟩
  have hs' := (write_parse_eq_iff hv').2 ⟨hsh', hsm'⟩
  have hth : v.headerJson.toString = v'.headerJson.toString := by
    rw [CanonicalJson.toString, CanonicalJson.sort_eq_of_reordered hrh hkh, CanonicalJson.toString]
  have htm : v.manifestJson.toString = v'.manifestJson.toString := by
    rw [CanonicalJson.toString, CanonicalJson.sort_eq_of_reordered hrm hkm, CanonicalJson.toString]
  have heq : s = s' := by
    rw [← hs, ← hs', write_eq, write_eq, hth, htm, hmods]
  subst heq
  rw [hv, Outcome.ok.injEq] at hv'
  subst hv'
  exact ⟨rfl, rfl⟩

/-- The same content with another text for the header. -/
def Validated.respell (v : Validated) (h m : Str) : Validated :=
  { v with
    footerDigest := Sha256.hash (bodyOf h m v.modules)
    raw := bodyOf h m v.modules ++ Sha256.hash (bodyOf h m v.modules) }

/-- Any text that is read as the same header makes an accepted file. -/
theorem Parsed.respell {Y : Yojson} {s h m : Str} {v : Validated} (hP : Parsed Y s h m v) {h' : Str}
    (hlt : h'.length < 2 ^ 32)
    (hread : ∃ j, Y.fromString h' = .ok j ∧ CanonicalJson.ofYojson j = .ok v.headerJson) :
    Parsed Y (v.respell h' m).raw h' m (v.respell h' m) := by
  obtain ⟨_, hmanifest⟩ := parseJson_eq_ok.1 hP.json
  have hjson := parseJson_eq_ok.2 ⟨hread, hmanifest⟩
  exact ⟨hlt, hP.manifest_lt, hP.count_le, hjson, hP.fits, hP.sorted, hP.total_le, rfl, rfl, rfl⟩

/-! ### The sample bundle, and the same with a blank in the header -/

/-- The sample reader, which also reads an empty object with a blank in it. -/
def blankYojson : Yojson where
  fromString s := if s = [123, 32, 125] then .ok (.assoc []) else sampleYojson.fromString s
  toString _ := []
  prettyToString _ := []

/-- Another reader that agrees on the two texts. -/
theorem Parsed.reader {Y Y' : Yojson} {s h m : Str} {v : Validated} (hP : Parsed Y s h m v)
    (hh : Y'.fromString h = Y.fromString h) (hm : Y'.fromString m = Y.fromString m) : Parsed Y' s h m v := by
  have hjson := hP.json
  rw [parseJson_eq_ok, ← hh, ← hm, ← parseJson_eq_ok] at hjson
  exact { hP with json := hjson }

theorem parsed_sampleBundle_blank :
    Parsed blankYojson sampleBundle (CanonicalJson.toString (.object [])) sampleManifestJson.toString
      sampleValidated := by
  have hempty : CanonicalJson.toString (.object []) ≠ [123, 32, 125] := by decide
  have hmanifest : sampleManifestJson.toString ≠ [123, 32, 125] := by decide +kernel
  refine parsed_sampleBundle.reader ?_ ?_
  · simp only [blankYojson, hempty, if_false]
  · simp only [blankYojson, hmanifest, if_false]

/-- The sample with a blank in its header text, `\x7b \x7d`. -/
def blankValidated : Validated := sampleValidated.respell [123, 32, 125] sampleManifestJson.toString

def blankBundle : Str := blankValidated.raw

theorem parsed_blankBundle :
    Parsed blankYojson blankBundle [123, 32, 125] sampleManifestJson.toString blankValidated := by
  refine parsed_sampleBundle_blank.respell (by decide) ⟨.assoc [], by simp [blankYojson], ?_⟩
  rfl

theorem sample_distinctKeys : sampleManifestJson.DistinctKeys := by
  simp [sampleManifestJson, sampleIo, sampleLimits, CanonicalJson.distinctKeys_object, CanonicalJson.DistinctKeys.int,
    CanonicalJson.DistinctKeys.string, CanonicalJson.DistinctKeys.bool, str]

/-- The sample is written back as it is. -/
theorem write_parse_sample :
    write sampleValidated.headerJson sampleValidated.manifest sampleValidated.manifestJson sampleValidated.modules =
      sampleBundle := by
  have hv : parse blankYojson sampleBundle = .ok sampleValidated := parse_eq_ok.2 ⟨_, _, parsed_sampleBundle_blank⟩
  obtain ⟨hh, hm⟩ := parsed_sampleBundle_blank.texts
  refine (write_parse_iff blankYojson sampleBundle sampleValidated hv).1.2 ⟨?_, ?_⟩
  · rw [hh, parsed_sampleBundle_blank.spelled_iff.1]
    exact CanonicalJson.toString_sort (by simp [CanonicalJson.distinctKeys_object])
  · rw [hm, parsed_sampleBundle_blank.spelled_iff.2]
    exact CanonicalJson.toString_sort sample_distinctKeys

/-- Two accepted files with the same header, manifest and modules that differ: the second one has a blank
in the text of its header, and writing its parts does not give it back. -/
theorem write_parse_blank :
    ∃ v v', parse blankYojson sampleBundle = .ok v ∧ parse blankYojson blankBundle = .ok v' ∧
      v'.headerJson.FloatFree ∧ v'.manifestJson.FloatFree ∧
      v.headerJson = v'.headerJson ∧ v.manifestJson = v'.manifestJson ∧ v.modules = v'.modules ∧
      write v'.headerJson v'.manifest v'.manifestJson v'.modules ≠ blankBundle ∧ sampleBundle ≠ blankBundle := by
  have hparse := parse_eq_ok.2 ⟨_, _, parsed_sampleBundle_blank⟩
  have hparse' := parse_eq_ok.2 ⟨_, _, parsed_blankBundle⟩
  refine ⟨sampleValidated, blankValidated, hparse, hparse', ?_, ?_, rfl, rfl, rfl, ?_, ?_⟩
  · exact CanonicalJson.FloatFree.sort _ (by simp)
  · exact CanonicalJson.FloatFree.sort _ sample_floatFree
  · intro h
    have hheader := (parsed_blankBundle.write_eq_iff.1 h).1
    revert hheader
    decide
  · intro h
    have hbytes := parsed_sampleBundle_blank.bytes
    have hbytes' := parsed_blankBundle.bytes
    rw [parsed_sampleBundle_blank.footer] at hbytes
    rw [← h, parsed_blankBundle.footer, hbytes] at hbytes'
    have hheader := (bodyOf_append_inj parsed_sampleBundle_blank.header_lt parsed_sampleBundle_blank.manifest_lt (by simp)
      hbytes').1
    revert hheader
    decide

end Bundle
end MirageLambda
