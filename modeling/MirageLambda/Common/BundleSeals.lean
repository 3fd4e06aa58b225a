import MirageLambda.Common.BundleCanonical
import MirageLambda.Lib.TextCode

/-!
# Where a bundle ends, and what its digests fix (common/bundle.ml)

Every variable part of an MLB1 file comes behind its length, so the file says where it ends: no accepted file starts
another one, and a row of them is cut in one way. That is `selfDelimiting_bytes`, for all cuts whose lengths the fields
can hold; it does not need the caps.

The digests are fixed-length names. `Collide` are two texts that SHA-256 does not tell apart; two accepted files that
differ behind equal digests contain such a pair, and `accepted_files_are_sealed` says where.
-/

namespace MirageLambda
open OCaml TextCode

namespace Bundle

theorem be32_inj {a b : Nat} (ha : a < 2 ^ 32) (hb : b < 2 ^ 32) (h : be32 a = be32 b) : a = b := by
  have hmod := be32_mod h
  rwa [Nat.mod_eq_of_lt ha, Nat.mod_eq_of_lt hb] at hmod

theorem be16_inj {a b : Nat} (ha : a < 2 ^ 16) (hb : b < 2 ^ 16) (h : be16 a = be16 b) : a = b := by
  unfold be16 at h
  simp only [List.cons.injEq, and_true, eq_ofNat_iff, UInt8.toNat_ofNat', Nat.shiftRight_eq_div_pow] at h
  omega

namespace Cut

/-- The lengths of a module fit their fields. -/
def EntryInRange (m : Str × Str) : Prop := m.1.length < 2 ^ 16 ∧ m.2.length < 2 ^ 32

/-- The lengths of a file fit their fields. -/
structure InRange (c : Cut) : Prop where
  header : c.header.length < 2 ^ 32
  manifest : c.manifest.length < 2 ^ 32
  count : c.modules.length < 2 ^ 32
  entries : ∀ m ∈ c.modules, EntryInRange m

theorem selfDelimiting_entry : SelfDelimitingOn EntryInRange entry := by
  rintro ⟨p, x⟩ ⟨p', x'⟩ u v ⟨hp, hx⟩ ⟨hp', hx'⟩ h
  simp only [entry, List.append_assoc] at h
  obtain ⟨hpath, h⟩ := List.append_inj h rfl
  obtain ⟨rfl, hrest⟩ := List.append_inj h (be16_inj hp hp' hpath)
  obtain ⟨hcontent, hrest⟩ := List.append_inj hrest rfl
  obtain ⟨-, hrest⟩ := List.append_inj hrest (by simp)
  obtain ⟨rfl, huv⟩ := List.append_inj hrest (be32_inj hx hx' hcontent)
  exact ⟨rfl, huv⟩

/-- **A file says where it ends.** -/
theorem selfDelimiting_bytes : SelfDelimitingOn InRange bytes := by
  rintro ⟨h, m, es⟩ ⟨h', m', es'⟩ u v hc hc' heq
  have hbytes := heq
  simp only [bytes, body, List.append_assoc] at heq
  obtain ⟨-, heq⟩ := List.append_inj heq rfl
  obtain ⟨hheader, heq⟩ := List.append_inj heq rfl
  obtain ⟨hmanifest, heq⟩ := List.append_inj heq rfl
  obtain ⟨hcount, heq⟩ := List.append_inj heq rfl
  obtain ⟨rfl, heq⟩ := List.append_inj heq (be32_inj hc.header hc'.header hheader)
  obtain ⟨rfl, heq⟩ := List.append_inj heq (be32_inj hc.manifest hc'.manifest hmanifest)
  obtain ⟨rfl, -⟩ := selfDelimiting_entry.counted hc.entries hc'.entries (be32_inj hc.count hc'.count hcount) heq
  exact ⟨rfl, List.append_cancel_left hbytes⟩

theorem bytes_ne_nil (c : Cut) : c.bytes ≠ [] := by
  intro h
  have hlen := congrArg List.length h
  rw [bytes, List.length_append, Sha256.length_hash, List.length_nil] at hlen
  omega

theorem Grammar.inRange {Y : Yojson} {c : Cut} (h : c.Grammar Y) : c.InRange := by
  refine ⟨h.header_lt, h.manifest_lt, ?_, fun m hm => ⟨?_, ?_⟩⟩
  · have := h.count_le
    omega
  · have := (h.entries m hm).path_le
    omega
  · have := (h.entries m hm).content_le
    omega

end Cut

/-! ## Accepted files -/

/-- A text that some reader makes an accepted file of. -/
def Accepted (s : Str) : Prop := ∃ Y v, parse Y s = .ok v

theorem Accepted.exists_cut {s : Str} (h : Accepted s) : ∃ c : Cut, c.InRange ∧ c.bytes = s := by
  obtain ⟨Y, v, hv⟩ := h
  obtain ⟨header, manifest, hP⟩ := parse_eq_ok.1 hv
  obtain ⟨hG, hbytes, -⟩ := hP.grammar
  exact ⟨_, hG.inRange, hbytes⟩

/-- Accepted files are a code of themselves. -/
theorem selfDelimiting_accepted : SelfDelimitingOn Accepted (id : Str → Str) := by
  intro s t u v hs ht h
  obtain ⟨c, hc, rfl⟩ := hs.exists_cut
  obtain ⟨c', hc', rfl⟩ := ht.exists_cut
  obtain ⟨rfl, huv⟩ := Cut.selfDelimiting_bytes c c' u v hc hc' h
  exact ⟨rfl, huv⟩

theorem Accepted.ne_nil {s : Str} (h : Accepted s) : s ≠ [] := by
  obtain ⟨c, -, rfl⟩ := h.exists_cut
  exact c.bytes_ne_nil

/-- **Where accepted files end.** None starts another one, and a row of them is cut in one way, whatever is behind it. -/
theorem accepted_files_delimit (ss ts : List Str) (hss : ∀ s ∈ ss, Accepted s) (hts : ∀ t ∈ ts, Accepted t) :
    (ss.flatten = ts.flatten → ss = ts) ∧
      ∀ u v, ss.length = ts.length → ss.flatten ++ u = ts.flatten ++ v → ss = ts ∧ u = v := by
  rw [← List.flatMap_id, ← List.flatMap_id]
  exact ⟨selfDelimiting_accepted.flatMap_inj (fun _ h => h.ne_nil) hss hts,
    fun u v hlen => selfDelimiting_accepted.counted hss hts hlen⟩

theorem accepted_files_delimit_sample :
    ([sampleBundle, blankBundle].flatten = [blankBundle, sampleBundle].flatten →
      [sampleBundle, blankBundle] = [blankBundle, sampleBundle]) ∧
    ∀ u v, [sampleBundle, blankBundle].length = [blankBundle, sampleBundle].length →
      [sampleBundle, blankBundle].flatten ++ u = [blankBundle, sampleBundle].flatten ++ v →
      [sampleBundle, blankBundle] = [blankBundle, sampleBundle] ∧ u = v := by
  have hsample : Accepted sampleBundle := ⟨_, _, parse_eq_ok.2 ⟨_, _, parsed_sampleBundle_blank⟩⟩
  have hblank : Accepted blankBundle := ⟨_, _, parse_eq_ok.2 ⟨_, _, parsed_blankBundle⟩⟩
  exact accepted_files_delimit [sampleBundle, blankBundle] [blankBundle, sampleBundle] (by simp [hsample, hblank])
    (by simp [hsample, hblank])

/-! ## What the digests fix -/

/-- Two texts that SHA-256 does not tell apart. -/
def Collide (a b : Str) : Prop := a ≠ b ∧ Sha256.hash a = Sha256.hash b

theorem eq_or_collide {a b : Str} (h : Sha256.hash a = Sha256.hash b) : a = b ∨ Collide a b := by
  by_cases hab : a = b
  · exact .inl hab
  · exact .inr ⟨hab, h⟩

/-- The part of a file in front of its footer. -/
def bodyText (s : Str) : Str := s.take (s.length - 32)

/-- What the table of modules says of them: the paths and the digests. -/
def moduleTable (v : Validated) : List (ModulePath × Str) := v.modules.map fun e => (e.path, e.digest)

theorem Parsed.bodyText_eq {Y : Yojson} {s h m : Str} {v : Validated} (hP : Parsed Y s h m v) :
    bodyText s = bodyOf h m v.modules := by
  have hlen : v.footerDigest.length = 32 := by
    rw [hP.footer, Sha256.length_hash]
  rw [bodyText, hP.bytes, List.length_append, hlen, Nat.add_sub_cancel, List.take_left]

/-- Modules with the same paths and digests: the contents are the same, or two at one path collide. -/
theorem modules_eq_or_collide {es es' : List ModuleEntry} (hes : ∀ e ∈ es, EntryFits e)
    (hes' : ∀ e ∈ es', EntryFits e)
    (h : es.map (fun e => (e.path, e.digest)) = es'.map fun e => (e.path, e.digest)) :
    es = es' ∨ ∃ e ∈ es, ∃ e' ∈ es', e.path = e'.path ∧ Collide e.content e'.content := by
  induction es generalizing es' with
  | nil =>
    obtain rfl := List.map_eq_nil_iff.1 h.symm
    exact .inl rfl
  | cons e es ih =>
    cases es' with
    | nil => simp at h
    | cons e' es' =>
      obtain ⟨he, hrest⟩ := List.forall_mem_cons.1 hes
      obtain ⟨he', hrest'⟩ := List.forall_mem_cons.1 hes'
      obtain ⟨⟨hpath, hdigest⟩, htail⟩ : (e.path = e'.path ∧ e.digest = e'.digest) ∧ _ := by
        simpa only [List.map_cons, List.cons.injEq, Prod.mk.injEq] using h
      have hhash : Sha256.hash e.content = Sha256.hash e'.content := by
        rw [← he.digest, ← he'.digest, hdigest]
      obtain hcontent | hcollide := eq_or_collide hhash
      · obtain rfl : e = e' := by
          cases e
          cases e'
          simp_all
        obtain rfl | ⟨x, hx, x', hx', hxs⟩ := ih hrest hrest' htail
        · exact .inl rfl
        · exact .inr ⟨x, List.mem_cons_of_mem _ hx, x', List.mem_cons_of_mem _ hx', hxs⟩
      · exact .inr ⟨e, by simp, e', by simp, hpath, hcollide⟩

/-- **What the digests fix.** Two accepted files with one footer are one file, or their bodies collide. Two with the
same texts and the same table of modules are one file, or the contents at some path collide. Who read them does not
matter. -/
theorem accepted_files_are_sealed (Y Y' : Yojson) (s s' : Str) (v v' : Validated) (hv : parse Y s = .ok v)
    (hv' : parse Y' s' = .ok v') :
    (v.footerDigest = v'.footerDigest → s = s' ∨ Collide (bodyText s) (bodyText s')) ∧
    (headerText s = headerText s' → manifestText s = manifestText s' → moduleTable v = moduleTable v' →
      s = s' ∨ ∃ e ∈ v.modules, ∃ e' ∈ v'.modules, e.path = e'.path ∧ Collide e.content e'.content) := by
  obtain ⟨h, m, hP⟩ := parse_eq_ok.1 hv
  obtain ⟨h', m', hP'⟩ := parse_eq_ok.1 hv'
  obtain ⟨hh, hm⟩ := hP.texts
  obtain ⟨hh', hm'⟩ := hP'.texts
  rw [hh, hh', hm, hm', hP.bodyText_eq, hP'.bodyText_eq]
  constructor
  · intro hfooter
    have hhash : Sha256.hash (bodyOf h m v.modules) = Sha256.hash (bodyOf h' m' v'.modules) := by
      rw [← hP.footer, ← hP'.footer, hfooter]
    obtain hbody | hcollide := eq_or_collide hhash
    · left
      rw [hP.bytes, hP'.bytes, hbody, hfooter]
    · exact .inr hcollide
  · rintro rfl rfl htable
    obtain hmodules | hcollide := modules_eq_or_collide hP.fits hP'.fits htable
    · left
      rw [hP.bytes, hP'.bytes, hP.footer, hP'.footer, hmodules]
    · exact .inr hcollide

/-- The sample and the same with a blank in its header: the tables agree, the headers do not. -/
theorem accepted_files_are_sealed_sample :
    moduleTable sampleValidated = moduleTable blankValidated ∧
    (sampleValidated.footerDigest = blankValidated.footerDigest →
      sampleBundle = blankBundle ∨ Collide (bodyText sampleBundle) (bodyText blankBundle)) := by
  have hsample : parse blankYojson sampleBundle = .ok sampleValidated := parse_eq_ok.2 ⟨_, _, parsed_sampleBundle_blank⟩
  have hblank : parse blankYojson blankBundle = .ok blankValidated := parse_eq_ok.2 ⟨_, _, parsed_blankBundle⟩
  have hseals := accepted_files_are_sealed blankYojson blankYojson sampleBundle blankBundle sampleValidated
    blankValidated hsample hblank
  refine ⟨?_, hseals.1⟩
  simp only [moduleTable, blankValidated, Validated.respell]

end Bundle
end MirageLambda
