import MirageLambda.Common.Bundle

/-!
# What `Bundle.parse` accepts

A `Cut` names the variable parts of an MLB1 file: header, manifest, and the `(path, content)` pairs.
Its `bytes` are the file, `Cut.Grammar` the side conditions of the format (guide §10.4) and
`Cut.Yields` the value the parser has to return. The parser is described bottom-up by what each
reader finds in the buffer (`SegAt`):

* `readEntry_eq_ok`, `readModules_eq_ok` — the module loop, by induction on the count, with the
  offset as invariant;
* `parse_eq_ok` — the whole parser.
-/

namespace MirageLambda
open OCaml

namespace Bundle

/-- The variable parts of an MLB1 file. -/
structure Cut where
  header : Str
  manifest : Str
  modules : List (Str × Str)
deriving DecidableEq

namespace Cut

/-- `e_i`: path length, path, content length, digest, content. -/
def entry (m : Str × Str) : Str :=
  be16 m.1.length ++ m.1 ++ be32 m.2.length ++ Sha256.hash m.2 ++ m.2

/-- Everything before the footer. -/
def body (c : Cut) : Str :=
  magic ++ be32 c.header.length ++ be32 c.manifest.length ++ be32 c.modules.length ++
    c.header ++ c.manifest ++ c.modules.flatMap entry

/-- The file: the body and its digest. -/
def bytes (c : Cut) : Str := c.body ++ Sha256.hash c.body

/-- The conditions on one module. -/
structure EntryOk (m : Str × Str) : Prop where
  path_pos : 1 ≤ m.1.length
  path_le : m.1.length ≤ 1024
  path_ok : ∃ p, ModulePath.ofString m.1 = .ok p
  content_le : m.2.length ≤ 16 * 1024 * 1024

/-- The side conditions of the grammar. -/
structure Grammar (Y : Yojson) (c : Cut) : Prop where
  header_lt : c.header.length < 2 ^ 32
  manifest_lt : c.manifest.length < 2 ^ 32
  count_le : c.modules.length ≤ 4096
  entries : ∀ m ∈ c.modules, EntryOk m
  sorted : c.modules.Pairwise fun a b => compare a.1 b.1 = .lt
  total_le : (c.modules.map fun m => m.2.length).sum ≤ 64 * 1024 * 1024
  headerJson : ∃ j v, Y.fromString c.header = .ok j ∧ CanonicalJson.ofYojson j = .ok v
  manifestJson : ∃ j m v, Y.fromString c.manifest = .ok j ∧ Manifest.parse j = .ok m ∧
    CanonicalJson.ofYojson j = .ok v

/-- The value that belongs to a cut. -/
structure Yields (Y : Yojson) (c : Cut) (v : Validated) : Prop where
  header : ∃ j, Y.fromString c.header = .ok j ∧ CanonicalJson.ofYojson j = .ok v.headerJson
  manifest : ∃ j, Y.fromString c.manifest = .ok j ∧ Manifest.parse j = .ok v.manifest ∧
    CanonicalJson.ofYojson j = .ok v.manifestJson
  modules : v.modules.map (fun e => (e.path.toStr, e.content, e.digest)) =
    c.modules.map fun m => (m.1, m.2, Sha256.hash m.2)
  footer : v.footerDigest = Sha256.hash c.body
  raw : v.raw = c.bytes

end Cut

/-! ## The module loop -/

/-- An entry within the caps whose digest is the one of its content. -/
structure EntryFits (e : ModuleEntry) : Prop where
  path_le : e.path.toStr.length ≤ 1024
  content_le : e.content.length ≤ maxModuleBytes
  digest : e.digest = Sha256.hash e.content

/-- The strict order of the loop (bundle.ml:236). -/
def PathLt (a b : ModuleEntry) : Prop := compare a.path.toStr b.path.toStr = .lt

theorem length_moduleBytes (e : ModuleEntry) :
    (moduleBytes e).length = 2 + e.path.toStr.length + 4 + 32 + e.content.length := by
  simp only [moduleBytes, List.length_append, length_be16, length_be32, Sha256.length_hash]

/-- `moduleBytes` field by field. -/
theorem segAt_moduleBytes {s : Str} {off : Nat} {e : ModuleEntry} :
    SegAt s off (moduleBytes e) ↔
      SegAt s off (be16 e.path.toStr.length) ∧ SegAt s (off + 2) e.path.toStr ∧
      SegAt s (off + 2 + e.path.toStr.length) (be32 e.content.length) ∧
      SegAt s (off + 2 + e.path.toStr.length + 4) (Sha256.hash e.content) ∧
      SegAt s (off + 2 + e.path.toStr.length + 4 + 32) e.content := by
  simp only [moduleBytes, segAt_append, List.length_append, length_be16, length_be32,
    Sha256.length_hash, ← Nat.add_assoc, and_assoc]

/-- **One entry.** `readEntry` returns `e` exactly when the bytes of `e` stand at the offset and `e`
is within the caps; it moves the offset past them. -/
theorem readEntry_eq_ok {s : Str} {off off' : Nat} {e : ModuleEntry} :
    readEntry s off = .ok (e, off') ↔
      EntryFits e ∧ SegAt s off (moduleBytes e) ∧ off' = off + (moduleBytes e).length := by
  rw [segAt_moduleBytes, length_moduleBytes]
  unfold readEntry
  simp only [Outcome.bind_eq_ok, Outcome.exit_eq_ok, readU16_eq_ok, readU32_eq_ok, sub_eq_ok,
    Outcome.mapError_eq_ok, ModulePath.ofString, Checked.ofString_eq_ok, ctEqBytes,
    Bool.not_eq_true', Outcome.pure_eq, Outcome.ok.injEq, Prod.mk.injEq]
  constructor
  · rintro ⟨_, ⟨_, h16⟩, hlen, _, p, ⟨rfl, hp⟩, path, rfl, _, ⟨_, h32⟩, hcl, _, d, ⟨_, hd⟩, _, c,
      ⟨rfl, hc⟩, hdig, rfl, rfl⟩
    have hd' : d = Sha256.hash c := constantTimeEqual_iff.1 (by simpa using hdig)
    subst hd'
    refine ⟨⟨by simp only; omega, by simp only; omega, rfl⟩, ⟨h16, hp, h32, hd, hc⟩, by simp only; omega⟩
  · rintro ⟨⟨hp1, hc1, hdig⟩, ⟨h16, hp, h32, hd, hc⟩, rfl⟩
    have hpos := e.path.length_pos
    have h1 := hp.le
    have h2 := hd.le
    have h3 := hc.le
    rw [Sha256.length_hash] at h2
    have hmax : maxModuleBytes < 2 ^ 32 := by decide
    refine ⟨e.path.toStr.length, ⟨by omega, h16⟩, by omega, by omega, e.path.toStr, ⟨rfl, hp⟩, e.path, rfl,
      e.content.length, ⟨by omega, h32⟩, by omega, by omega, e.digest, ⟨?_, ?_⟩, by omega, e.content, ⟨rfl, hc⟩, ?_, rfl, ?_⟩
    · rw [hdig, Sha256.length_hash]
    · rw [hdig]; exact hd
    · rw [hdig]
      simp [constantTimeEqual_iff.2 rfl]
    · omega

instance : Trans PathLt PathLt PathLt := ⟨Std.TransCmp.lt_trans⟩

/-- The order check of one turn: only the entry read last is compared (bundle.ml:234-239). -/
theorem isChain_head_append {acc es : List ModuleEntry} {e : ModuleEntry} :
    List.IsChain PathLt (acc.head?.toList ++ e :: es) ↔
      (∀ prev ∈ acc.head?, PathLt prev e) ∧ List.IsChain PathLt (e :: es) := by
  cases acc with
  | nil => simp
  | cons a as => simp [List.isChain_cons_cons]

/-- The loop unrolled once. -/
theorem readModules_succ {s : Str} {n off : Nat} {acc : List ModuleEntry} {r : List ModuleEntry × Nat} :
    readModules s (n + 1) off acc = .ok r ↔
      ∃ e off', readEntry s off = .ok (e, off') ∧ (∀ prev ∈ acc.head?, PathLt prev e) ∧
        readModules s n off' (e :: acc) = .ok r := by
  rw [readModules, Outcome.bind_eq_ok]
  constructor
  · rintro ⟨⟨e, off'⟩, he, h⟩
    refine ⟨e, off', he, ?_⟩
    cases acc with
    | nil => exact ⟨by simp, h⟩
    | cons prev as =>
      obtain ⟨hlt, h⟩ := Outcome.exit_eq_ok.1 h
      refine ⟨?_, h⟩
      simpa [PathLt] using hlt
  · rintro ⟨e, off', he, hlt, h⟩
    refine ⟨(e, off'), he, ?_⟩
    cases acc with
    | nil => exact h
    | cons prev as =>
      refine Outcome.exit_eq_ok.2 ⟨?_, h⟩
      simpa [PathLt] using hlt

/-- **The loop.** `readModules` returns exactly the entries whose bytes stand back to back from the
offset on, when they are strictly sorted, also with respect to the entry before them. -/
theorem readModules_eq_ok {s : Str} {n off off' : Nat} {acc ms : List ModuleEntry} (hoff : off ≤ s.length) :
    readModules s n off acc = .ok (ms, off') ↔
      ∃ es, es.length = n ∧ ms = acc.reverse ++ es ∧ (∀ e ∈ es, EntryFits e) ∧
        List.IsChain PathLt (acc.head?.toList ++ es) ∧ SegAt s off (es.flatMap moduleBytes) ∧
        off' = off + (es.flatMap moduleBytes).length := by
  -- induction on the entries still to read; offset and accumulator move with them
  induction n generalizing off acc with
  | zero =>
    have hchain : List.IsChain PathLt (acc.head?.toList ++ []) := by cases acc <;> simp
    simp only [readModules, Outcome.ok.injEq, Prod.mk.injEq]
    constructor
    · rintro ⟨rfl, rfl⟩
      exact ⟨[], rfl, by simp, by simp, hchain, by simpa using hoff, by simp⟩
    · rintro ⟨es, hlen, rfl, _, _, _, rfl⟩
      obtain rfl := List.length_eq_zero_iff.1 hlen
      simp
  | succ n ih =>
    rw [readModules_succ]
    constructor
    · rintro ⟨e, off₁, he, hlt, h⟩
      obtain ⟨hfit, hseg, rfl⟩ := readEntry_eq_ok.1 he
      obtain ⟨es, hlen, rfl, hfits, hchain, hsegs, rfl⟩ := (ih hseg.le).1 h
      refine ⟨e :: es, by simp [hlen], by simp, ?_, isChain_head_append.2 ⟨hlt, hchain⟩, ?_, ?_⟩
      · intro x hx
        rcases List.mem_cons.1 hx with rfl | hx
        · exact hfit
        · exact hfits x hx
      · rw [List.flatMap_cons, segAt_append]
        exact ⟨hseg, hsegs⟩
      · rw [List.flatMap_cons, List.length_append, Nat.add_assoc]
    · rintro ⟨es, hlen, rfl, hfits, hchain, hsegs, rfl⟩
      cases es with
      | nil => simp at hlen
      | cons e es =>
        obtain ⟨hlt, hchain⟩ := isChain_head_append.1 hchain
        rw [List.flatMap_cons, segAt_append] at hsegs
        refine ⟨e, _, readEntry_eq_ok.2 ⟨hfits e (by simp), hsegs.1, rfl⟩, hlt, ?_⟩
        refine (ih hsegs.1.le).2 ⟨es, by simpa using hlen, by simp, fun x hx => hfits x (by simp [hx]),
          hchain, hsegs.2, ?_⟩
        rw [List.flatMap_cons, List.length_append, Nat.add_assoc]

/-! ## The whole file -/

theorem fromString_returns (Y : Yojson) (label : String) (x : Str) : (fromString Y label x).Returns := by
  unfold fromString
  split <;> simp

theorem fromString_eq_ok {Y : Yojson} {label : String} {x : Str} {j : Json} :
    fromString Y label x = .ok j ↔ Y.fromString x = .ok j := by
  unfold fromString
  split <;> simp_all

/-- The JSON half accepts exactly what Yojson reads and the two checks accept. -/
theorem parseJson_eq_ok {Y : Yojson} {h m : Str} {hj mj : CanonicalJson} {mv : Manifest} :
    parseJson Y h m = .ok (hj, mv, mj) ↔
      (∃ j, Y.fromString h = .ok j ∧ CanonicalJson.ofYojson j = .ok hj) ∧
      ∃ j, Y.fromString m = .ok j ∧ Manifest.parse j = .ok mv ∧ CanonicalJson.ofYojson j = .ok mj := by
  unfold parseJson
  simp only [Outcome.bind_eq_ok, fromString_eq_ok, Outcome.mapError_eq_ok, Outcome.pure_eq, Outcome.ok.injEq,
    Prod.mk.injEq]
  constructor
  · rintro ⟨j, hj, _, hcj, j', hj', _, hmv, _, hmj, rfl, rfl, rfl⟩
    exact ⟨⟨j, hj, hcj⟩, j', hj', hmv, hmj⟩
  · rintro ⟨⟨j, hj, hcj⟩, j', hj', hmv, hmj⟩
    exact ⟨j, hj, _, hcj, j', hj', _, hmv, _, hmj, rfl, rfl, rfl⟩

theorem totalBytes_eq_sum (ms : List ModuleEntry) :
    totalBytes ms = (ms.map fun m => m.content.length).sum := by
  unfold totalBytes
  have h : ∀ (l : List ModuleEntry) (a : Nat),
      l.foldl (fun a m => a + m.content.length) a = a + (l.map fun m => m.content.length).sum := by
    intro l
    induction l with
    | nil => simp
    | cons m l ih =>
      intro a
      rw [List.foldl_cons, ih, List.map_cons, List.sum_cons]
      omega
  rw [h, Nat.zero_add]

/-- The footer is the digest of everything before it, and the last thing in the file. -/
theorem parseFooter_eq_ok {s body : Str} {ms : List ModuleEntry} {footer : Str} (hbody : SegAt s 0 body) :
    parseFooter s body.length ms = .ok footer ↔
      totalBytes ms ≤ maxTotalBytes ∧ footer = Sha256.hash body ∧ s = body ++ footer := by
  unfold parseFooter
  simp only [Outcome.exit_eq_ok, Outcome.bind_eq_ok, sub_eq_ok, ctEqBytes, Bool.not_eq_true',
    Outcome.pure_eq, Outcome.ok.injEq]
  constructor
  · rintro ⟨htot, hend, f, ⟨hflen, hf⟩, pre, ⟨hplen, hpre⟩, hdig, rfl⟩
    obtain rfl : pre = body := hpre.eq_of_length hbody hplen
    refine ⟨by omega, constantTimeEqual_iff.1 (by simpa using hdig), ?_⟩
    refine ((segAt_zero_of_length ?_).1 (segAt_append.2 ⟨hbody, by simpa using hf⟩)).symm
    rw [List.length_append]
    omega
  · rintro ⟨htot, rfl, rfl⟩
    have hseg := (segAt_append.1 (segAt_self (body ++ Sha256.hash body))).2
    refine ⟨by omega, by simp, Sha256.hash body, ⟨by simp, by simpa using hseg⟩, body, ⟨rfl, hbody⟩, ?_, rfl⟩
    simp [constantTimeEqual_iff.2 rfl]

/-- The fixed fields, header and manifest. -/
def preamble (header manifest : Str) (count : Nat) : Str :=
  magic ++ be32 header.length ++ be32 manifest.length ++ be32 count ++ header ++ manifest

theorem length_preamble (h m : Str) (n : Nat) : (preamble h m n).length = 16 + h.length + m.length := by
  simp only [preamble, List.length_append, length_be32, show magic.length = 4 from rfl]

theorem segAt_preamble {s h m : Str} {n : Nat} :
    SegAt s 0 (preamble h m n) ↔
      SegAt s 0 magic ∧ SegAt s 4 (be32 h.length) ∧ SegAt s 8 (be32 m.length) ∧ SegAt s 12 (be32 n) ∧
        SegAt s 16 h ∧ SegAt s (16 + h.length) m := by
  simp only [preamble, segAt_append, List.length_append, length_be32, show magic.length = 4 from rfl,
    and_assoc, Nat.zero_add]

/-- `readPreamble` accepts exactly a preamble. -/
theorem readPreamble_eq_ok {s h m : Str} {n off : Nat} :
    readPreamble s = .ok (h, m, n, off) ↔
      h.length < 2 ^ 32 ∧ m.length < 2 ^ 32 ∧ n ≤ maxModuleCount ∧ SegAt s 0 (preamble h m n) ∧
        off = (preamble h m n).length := by
  rw [segAt_preamble, length_preamble]
  unfold readPreamble
  simp only [Outcome.bind_eq_ok, Outcome.exit_eq_ok, readU32_eq_ok, sub_eq_ok, Outcome.pure_eq,
    Outcome.ok.injEq, Prod.mk.injEq, ne_eq, not_not]
  constructor
  · rintro ⟨_, mg, ⟨_, h0⟩, rfl, _, ⟨hh, h4⟩, _, ⟨hm, h8⟩, _, ⟨_, h12⟩, hn, _, x, ⟨rfl, h16⟩, _, y,
      ⟨rfl, hm'⟩, rfl, rfl, rfl, rfl⟩
    exact ⟨hh, hm, by omega, ⟨h0, h4, h8, h12, h16, hm'⟩, by omega⟩
  · rintro ⟨hh, hm, hn, ⟨h0, h4, h8, h12, h16, hm'⟩, rfl⟩
    have hle := hm'.le
    have hmax : maxModuleCount < 2 ^ 32 := by decide
    exact ⟨by omega, magic, ⟨rfl, h0⟩, rfl, h.length, ⟨hh, h4⟩, m.length, ⟨hm, h8⟩, n, ⟨by omega, h12⟩,
      by omega, by omega, h, ⟨rfl, h16⟩, by omega, m, ⟨rfl, hm'⟩, rfl, rfl, rfl, rfl⟩

/-- The body of a bundle whose modules are `es`. -/
def bodyOf (h m : Str) (es : List ModuleEntry) : Str := preamble h m es.length ++ es.flatMap moduleBytes

/-- The parser's own account of an accepted file: header and manifest texts `h` and `m`, and `v` for
the rest. -/
structure Parsed (Y : Yojson) (s h m : Str) (v : Validated) : Prop where
  header_lt : h.length < 2 ^ 32
  manifest_lt : m.length < 2 ^ 32
  count_le : v.modules.length ≤ maxModuleCount
  json : parseJson Y h m = .ok (v.headerJson, v.manifest, v.manifestJson)
  fits : ∀ e ∈ v.modules, EntryFits e
  sorted : List.IsChain PathLt v.modules
  total_le : totalBytes v.modules ≤ maxTotalBytes
  footer : v.footerDigest = Sha256.hash (bodyOf h m v.modules)
  bytes : s = bodyOf h m v.modules ++ v.footerDigest
  raw : v.raw = s

theorem parse_eq_ok {Y : Yojson} {s : Str} {v : Validated} :
    parse Y s = .ok v ↔ ∃ h m, Parsed Y s h m v := by
  unfold parse
  simp only [Outcome.bind_eq_ok, Outcome.pure_eq, Outcome.ok.injEq, Prod.exists]
  constructor
  · rintro ⟨h, m, n, off, hpre, hj, mv, mj, hjson, ms, off', hmods, footer, hfoot, rfl⟩
    obtain ⟨hh, hm, hn, hseg, rfl⟩ := readPreamble_eq_ok.1 hpre
    have hle : (preamble h m n).length ≤ s.length := by simpa using hseg.le
    obtain ⟨es, rfl, hms, hfits, hchain, hsegs, rfl⟩ := (readModules_eq_ok hle).1 hmods
    obtain rfl : ms = es := by simpa using hms
    have hbody : SegAt s 0 (bodyOf h m ms) := segAt_append.2 ⟨hseg, by simpa using hsegs⟩
    rw [← List.length_append] at hfoot
    obtain ⟨htot, rfl, hs⟩ := (parseFooter_eq_ok hbody).1 hfoot
    exact ⟨h, m, hh, hm, hn, hjson, hfits, hchain, htot, rfl, hs, rfl⟩
  · rintro ⟨h, m, hP⟩
    have hbody : SegAt s 0 (bodyOf h m v.modules) := by
      rw [hP.bytes]
      exact segAt_of_append
    obtain ⟨hseg, hsegs⟩ := segAt_append.1 hbody
    have hle : (preamble h m v.modules.length).length ≤ s.length := by simpa using hseg.le
    refine ⟨h, m, v.modules.length, _, readPreamble_eq_ok.2 ⟨hP.header_lt, hP.manifest_lt, hP.count_le, hseg, rfl⟩,
      v.headerJson, v.manifest, v.manifestJson, hP.json, v.modules, (bodyOf h m v.modules).length,
      (readModules_eq_ok hle).2 ⟨v.modules, rfl, rfl, hP.fits, hP.sorted, by simpa using hsegs, ?_⟩,
      v.footerDigest, (parseFooter_eq_ok hbody).2 ⟨hP.total_le, hP.footer, hP.bytes⟩, ?_⟩
    · rw [bodyOf, List.length_append]
    · cases v
      simp only [Validated.mk.injEq, true_and]
      exact hP.raw.symm

/-! ## The grammar -/

/-- The cut of a parsed file. -/
def Validated.cut (h m : Str) (v : Validated) : Cut :=
  { header := h, manifest := m, modules := v.modules.map fun e => (e.path.toStr, e.content) }

theorem body_cut (h m : Str) (v : Validated) : (v.cut h m).body = bodyOf h m v.modules := by
  simp only [Cut.body, Validated.cut, bodyOf, preamble, List.length_map, List.flatMap_map]
  rfl

/-- The modules a cut yields are its own pairs, with their digests. -/
theorem modules_eq_iff {es : List ModuleEntry} {ms : List (Str × Str)} :
    es.map (fun e => (e.path.toStr, e.content, e.digest)) = ms.map (fun m => (m.1, m.2, Sha256.hash m.2)) ↔
      ms = es.map (fun e => (e.path.toStr, e.content)) ∧ ∀ e ∈ es, e.digest = Sha256.hash e.content := by
  induction es generalizing ms with
  | nil => cases ms <;> simp
  | cons e es ih =>
    cases ms with
    | nil => simp
    | cons m ms =>
      obtain ⟨p, c⟩ := m
      simp only [List.map_cons, List.cons.injEq, Prod.mk.injEq, ih, List.mem_cons, forall_eq_or_imp]
      constructor
      · rintro ⟨⟨rfl, rfl, hd⟩, rfl, hds⟩
        exact ⟨⟨⟨rfl, rfl⟩, rfl⟩, hd, hds⟩
      · rintro ⟨⟨⟨rfl, rfl⟩, rfl⟩, hd, hds⟩
        exact ⟨⟨rfl, rfl, hd⟩, rfl, hds⟩

theorem Cut.Yields.cut_eq {Y : Yojson} {c : Cut} {v : Validated} (h : c.Yields Y v) :
    c = v.cut c.header c.manifest := by
  have := (modules_eq_iff.1 h.modules).1
  cases c
  simp only [Validated.cut, Cut.mk.injEq, true_and]
  exact this

/-- What the parser accounts for is a file of the grammar. -/
theorem Parsed.grammar {Y : Yojson} {s h m : Str} {v : Validated} (hP : Parsed Y s h m v) :
    (v.cut h m).Grammar Y ∧ (v.cut h m).bytes = s ∧ (v.cut h m).Yields Y v := by
  obtain ⟨⟨j, hj, hcj⟩, j', hj', hmv, hmj⟩ := parseJson_eq_ok.1 hP.json
  have hbytes : (v.cut h m).bytes = s := by
    rw [Cut.bytes, body_cut, ← hP.footer]
    exact hP.bytes.symm
  refine ⟨?_, hbytes, ?_⟩
  · refine ⟨hP.header_lt, hP.manifest_lt, ?_, ?_, ?_, ?_, ⟨j, _, hj, hcj⟩, ⟨j', _, _, hj', hmv, hmj⟩⟩
    · rw [Validated.cut, List.length_map]
      exact hP.count_le
    · intro x hx
      obtain ⟨e, he, rfl⟩ := List.mem_map.1 hx
      have hfit := hP.fits e he
      exact ⟨e.path.length_pos, hfit.path_le, ⟨e.path, Checked.ofString_toStr e.path⟩, hfit.content_le⟩
    · simp only [Validated.cut, List.pairwise_map]
      exact (List.isChain_iff_pairwise (R := PathLt)).1 hP.sorted
    · have htotal := hP.total_le
      rw [totalBytes_eq_sum] at htotal
      rw [Validated.cut, List.map_map]
      exact htotal
  · refine ⟨⟨j, hj, hcj⟩, ⟨j', hj', hmv, hmj⟩, ?_, ?_, ?_⟩
    · exact modules_eq_iff.2 ⟨rfl, fun e he => (hP.fits e he).digest⟩
    · rw [body_cut]
      exact hP.footer
    · rw [hbytes]
      exact hP.raw

/-- A file of the grammar is what the parser accounts for. -/
theorem Cut.Grammar.parsed {Y : Yojson} {c : Cut} {v : Validated} (hG : c.Grammar Y) (hY : c.Yields Y v) :
    Parsed Y c.bytes c.header c.manifest v := by
  obtain ⟨hmods, hdig⟩ := modules_eq_iff.1 hY.modules
  have hbody : c.body = bodyOf c.header c.manifest v.modules := by
    rw [← body_cut, ← hY.cut_eq]
  have hmem : ∀ e ∈ v.modules, (e.path.toStr, e.content) ∈ c.modules := by
    intro e he
    rw [hmods]
    exact List.mem_map.2 ⟨e, he, rfl⟩
  refine ⟨hG.header_lt, hG.manifest_lt, ?_, parseJson_eq_ok.2 ⟨hY.header, hY.manifest⟩, ?_, ?_, ?_, ?_, ?_, hY.raw⟩
  · have := hG.count_le
    rwa [hmods, List.length_map] at this
  · intro e he
    have hok := hG.entries _ (hmem e he)
    exact ⟨hok.path_le, hok.content_le, hdig e he⟩
  · have hsorted := hG.sorted
    rw [hmods, List.pairwise_map] at hsorted
    exact List.isChain_iff_pairwise.2 hsorted
  · have htotal := hG.total_le
    rw [hmods, List.map_map] at htotal
    rw [totalBytes_eq_sum]
    exact htotal
  · rw [← hbody]
    exact hY.footer
  · rw [Cut.bytes, hY.footer, hbody]

/-- Every file of the grammar has a value: the paths are accepted one by one. -/
theorem Cut.Grammar.exists_yields {Y : Yojson} {c : Cut} (hG : c.Grammar Y) : ∃ v, c.Yields Y v := by
  obtain ⟨j, hj, hfrom, hcj⟩ := hG.headerJson
  obtain ⟨j', mv, mj, hfrom', hmv, hmj⟩ := hG.manifestJson
  have hentries : ∀ ms : List (Str × Str), (∀ m ∈ ms, EntryOk m) → ∃ es : List ModuleEntry,
      es.map (fun e => (e.path.toStr, e.content, e.digest)) = ms.map fun m => (m.1, m.2, Sha256.hash m.2) := by
    intro ms
    induction ms with
    | nil => exact fun _ => ⟨[], rfl⟩
    | cons m ms ih =>
      intro hok
      obtain ⟨es, hes⟩ := ih fun x hx => hok x (by simp [hx])
      obtain ⟨p, hp⟩ := (hok m (by simp)).path_ok
      refine ⟨⟨p, m.2, Sha256.hash m.2⟩ :: es, ?_⟩
      rw [List.map_cons, List.map_cons, hes, Checked.ofString_eq_ok.1 hp]
  obtain ⟨es, hes⟩ := hentries c.modules hG.entries
  exact ⟨⟨hj, mv, mj, es, Sha256.hash c.body, c.bytes⟩, ⟨j, hfrom, hcj⟩, ⟨j', hfrom', hmv, hmj⟩, hes, rfl, rfl⟩

/-- Two cuts of one file are the same: the parser finds both. -/
theorem Cut.Grammar.unique {Y : Yojson} {c c' : Cut} (hG : c.Grammar Y) (hG' : c'.Grammar Y)
    (h : c.bytes = c'.bytes) : c = c' := by
  obtain ⟨v, hv⟩ := hG.exists_yields
  obtain ⟨v', hv'⟩ := hG'.exists_yields
  have hP := hG.parsed hv
  have hP' := hG'.parsed hv'
  rw [← h] at hP'
  have heq : v = v' := by
    have h1 := parse_eq_ok.2 ⟨_, _, hP⟩
    rw [parse_eq_ok.2 ⟨_, _, hP'⟩] at h1
    exact (Outcome.ok.inj h1).symm
  subst heq
  -- the texts of header and manifest are read by the same calls, too
  have hpre : ∀ {x m}, Parsed Y c.bytes x m v →
      readPreamble c.bytes = .ok (x, m, v.modules.length, (preamble x m v.modules.length).length) := by
    intro x m hP
    have hseg : SegAt c.bytes 0 (bodyOf x m v.modules) := by
      rw [hP.bytes]
      exact segAt_of_append
    exact readPreamble_eq_ok.2 ⟨hP.header_lt, hP.manifest_lt, hP.count_le, (segAt_append.1 hseg).1, rfl⟩
  have h1 := hpre hP
  rw [hpre hP'] at h1
  simp only [Outcome.ok.injEq, Prod.mk.injEq] at h1
  rw [hv.cut_eq, hv'.cut_eq, h1.1, h1.2.1]

/-- **`Bundle.parse` accepts exactly the MLB1 grammar.** A byte string is accepted with value `v`
exactly when it is the bytes of a cut of the grammar that yields `v`; every cut of the grammar is
accepted; and no byte string has two cuts. -/
theorem parse_accepts_grammar (Y : Yojson) (s : Str) :
    (∀ v, parse Y s = .ok v ↔ ∃ c : Cut, c.Grammar Y ∧ c.bytes = s ∧ c.Yields Y v) ∧
      ((∃ v, parse Y s = .ok v) ↔ ∃ c : Cut, c.Grammar Y ∧ c.bytes = s) ∧
      { c : Cut | c.Grammar Y ∧ c.bytes = s }.Subsingleton := by
  have hiff : ∀ v, parse Y s = .ok v ↔ ∃ c : Cut, c.Grammar Y ∧ c.bytes = s ∧ c.Yields Y v := by
    intro v
    rw [parse_eq_ok]
    constructor
    · rintro ⟨h, m, hP⟩
      exact ⟨v.cut h m, hP.grammar⟩
    · rintro ⟨c, hG, rfl, hY⟩
      exact ⟨c.header, c.manifest, hG.parsed hY⟩
  refine ⟨hiff, ?_, ?_⟩
  · constructor
    · rintro ⟨v, hv⟩
      obtain ⟨c, hG, hb, _⟩ := (hiff v).1 hv
      exact ⟨c, hG, hb⟩
    · rintro ⟨c, hG, hb⟩
      obtain ⟨v, hv⟩ := hG.exists_yields
      exact ⟨v, (hiff v).2 ⟨c, hG, hb, hv⟩⟩
  · rintro c ⟨hG, hb⟩ c' ⟨hG', hb'⟩
    exact hG.unique hG' (hb.trans hb'.symm)

end Bundle
end MirageLambda
