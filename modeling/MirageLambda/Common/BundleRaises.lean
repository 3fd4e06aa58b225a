import MirageLambda.Common.BundleGrammar

/-!
# Which inputs make the parsers raise

`Bundle.parse` and `Manifest.parse_string` answer malformed input with `Error`, with two exceptions
that come from below: `Module_path.of_string` on a path of three bytes, and the `_exn` constructor on
the binding name of an `invoke` target (`Manifest.ParseRaises`). Everything else on the way, each
`String.sub` and each byte access, is guarded. `parse_raises_iff` says which buffers get there.
-/

namespace MirageLambda
open OCaml

namespace Bundle

/-- A module entry that starts with a path of three bytes which `Module_path.of_string` cannot
look at. -/
def ShortPathAt (s : Str) (off : Nat) : Prop := ∃ p, ShortPath p ∧ SegAt s off (be16 p.length ++ p)

theorem readEntry_raises {s : Str} {off : Nat} : (readEntry s off).Raises ↔ ShortPathAt s off := by
  unfold readEntry ShortPathAt
  simp only [Outcome.raises_bind_of_returns (readU16_returns _ _),
    Outcome.raises_bind_of_returns (readU32_returns _ _), Outcome.raises_exit, Outcome.raises_bind,
    Outcome.raises_mapError, Manifest.modulePath_ofString_raises, sub_raises, sub_eq_ok, readU16_eq_ok,
    Outcome.pure_eq, Outcome.raises_ok, and_false, exists_false, or_false, segAt_append, length_be16]
  constructor
  · rintro ⟨n, ⟨_, h16⟩, _, hle, hsub | ⟨p, ⟨rfl, hp⟩, hraise⟩⟩
    · omega
    · rcases hraise with hshort | ⟨path, _, cl, _, _, hd, hsub | ⟨d, _, hc, hsub⟩⟩
      · exact ⟨p, hshort, h16, hp⟩
      · omega
      · omega
  · rintro ⟨p, hshort, h16, hp⟩
    have hlen := hshort.1
    have hle := hp.le
    exact ⟨p.length, ⟨by omega, h16⟩, by omega, by omega, Or.inr ⟨p, ⟨rfl, hp⟩, Or.inl hshort⟩⟩

/-- The loop raises when, after some entries it accepts, it meets a short path. -/
theorem readModules_raises {s : Str} {n off : Nat} {acc : List ModuleEntry} (hoff : off ≤ s.length) :
    (readModules s n off acc).Raises ↔
      ∃ es, es.length < n ∧ (∀ e ∈ es, EntryFits e) ∧ List.IsChain PathLt (acc.head?.toList ++ es) ∧
        SegAt s off (es.flatMap moduleBytes) ∧ ShortPathAt s (off + (es.flatMap moduleBytes).length) := by
  -- induction on the entries still to read
  induction n generalizing off acc with
  | zero => simp [readModules]
  | succ n ih =>
    have hstep : (readModules s (n + 1) off acc).Raises ↔ (readEntry s off).Raises ∨
        ∃ e off', readEntry s off = .ok (e, off') ∧ (∀ prev ∈ acc.head?, PathLt prev e) ∧
          (readModules s n off' (e :: acc)).Raises := by
      rw [readModules, Outcome.raises_bind]
      cases acc with
      | nil => simp
      | cons prev as =>
        simp only [Outcome.raises_exit, ne_eq, not_not, Prod.exists, List.head?_cons, Option.mem_def,
          Option.some.injEq, forall_eq', PathLt]
    rw [hstep, readEntry_raises]
    constructor
    · rintro (hshort | ⟨e, off₁, he, hlt, h⟩)
      · have hchain : List.IsChain PathLt (acc.head?.toList ++ []) := by cases acc <;> simp
        exact ⟨[], by simp, by simp, hchain, by simpa using hoff, by simpa using hshort⟩
      · obtain ⟨hfit, hseg, rfl⟩ := readEntry_eq_ok.1 he
        obtain ⟨es, hlen, hfits, hchain, hsegs, hshort⟩ := (ih hseg.le).1 h
        refine ⟨e :: es, by simpa using hlen, ?_, isChain_head_append.2 ⟨hlt, hchain⟩, ?_, ?_⟩
        · intro x hx
          rcases List.mem_cons.1 hx with rfl | hx
          · exact hfit
          · exact hfits x hx
        · rw [List.flatMap_cons, segAt_append]
          exact ⟨hseg, hsegs⟩
        · rw [List.flatMap_cons, List.length_append, ← Nat.add_assoc]
          exact hshort
    · rintro ⟨es, hlen, hfits, hchain, hsegs, hshort⟩
      cases es with
      | nil =>
        left
        simpa using hshort
      | cons e es =>
        right
        obtain ⟨hlt, hchain⟩ := isChain_head_append.1 hchain
        rw [List.flatMap_cons, segAt_append] at hsegs
        rw [List.flatMap_cons, List.length_append, ← Nat.add_assoc] at hshort
        exact ⟨e, _, readEntry_eq_ok.2 ⟨hfits e (by simp), hsegs.1, rfl⟩, hlt,
          (ih hsegs.1.le).2 ⟨es, by simpa using hlen, fun x hx => hfits x (by simp [hx]), hchain, hsegs.2, hshort⟩⟩

theorem parseJson_raises {Y : Yojson} {h m : Str} :
    (parseJson Y h m).Raises ↔
      (∃ j v, Y.fromString h = .ok j ∧ CanonicalJson.ofYojson j = .ok v) ∧
        ∃ j, Y.fromString m = .ok j ∧ Manifest.ParseRaises j := by
  have hret : ∀ j, ((CanonicalJson.ofYojson j).mapError invalid).Returns :=
    fun j => Outcome.returns_mapError.2 (CanonicalJson.ofYojson_returns j)
  unfold parseJson
  simp only [Outcome.raises_bind_of_returns (fromString_returns _ _ _),
    Outcome.raises_bind_of_returns (hret _), Outcome.raises_bind, Outcome.raises_mapError,
    Manifest.parse_raises_iff, fromString_eq_ok, Outcome.mapError_eq_ok, Outcome.pure_eq,
    Outcome.raises_ok, and_false, exists_false, or_false]
  constructor
  · rintro ⟨j, hj, v, hv, j', hj', hr⟩
    exact ⟨⟨j, v, hj, hv⟩, j', hj', hr⟩
  · rintro ⟨⟨j, v, hj, hv⟩, j', hj', hr⟩
    exact ⟨j, hj, v, hv, j', hj', hr⟩

theorem readPreamble_returns (s : Str) : (readPreamble s).Returns := by
  rw [← Outcome.not_raises_iff]
  unfold readPreamble
  simp only [Outcome.raises_bind_of_returns (readU32_returns _ _), Outcome.raises_exit,
    Outcome.raises_bind, sub_raises, Outcome.pure_eq, Outcome.raises_ok, and_false, exists_false, or_false]
  rintro ⟨h16, hsub | ⟨_, _, _, _, _, _, _, _, _, _, hh, hsub | ⟨_, _, hm, hsub⟩⟩⟩
  · omega
  · omega
  · omega

theorem parseFooter_returns (s : Str) (off : Nat) (ms : List ModuleEntry) :
    (parseFooter s off ms).Returns := by
  rw [← Outcome.not_raises_iff]
  unfold parseFooter
  simp only [Outcome.raises_exit, Outcome.raises_bind, sub_raises, Outcome.pure_eq, Outcome.raises_ok,
    and_false, exists_false, or_false]
  rintro ⟨_, hend, hsub | ⟨_, _, hsub⟩⟩
  · omega
  · omega

/-- The buffers on which `Bundle.parse` raises. They start with the preamble of a bundle whose header
is accepted, and then either the manifest is one on which `Manifest.parse` raises, or the manifest is
accepted and after some sorted, intact entries an entry with a short path begins. -/
structure RaisesAt (Y : Yojson) (s h m : Str) (n : Nat) : Prop where
  header_lt : h.length < 2 ^ 32
  manifest_lt : m.length < 2 ^ 32
  count_le : n ≤ maxModuleCount
  preamble : SegAt s 0 (preamble h m n)
  header : ∃ j v, Y.fromString h = .ok j ∧ CanonicalJson.ofYojson j = .ok v
  reaches : ∃ j, Y.fromString m = .ok j ∧ (Manifest.ParseRaises j ∨
    (∃ mv, Manifest.parse j = .ok mv) ∧ (∃ v, CanonicalJson.ofYojson j = .ok v) ∧
      ∃ es : List ModuleEntry, es.length < n ∧ (∀ e ∈ es, EntryFits e) ∧ es.IsChain PathLt ∧
        SegAt s (16 + h.length + m.length) (es.flatMap moduleBytes) ∧
        ShortPathAt s (16 + h.length + m.length + (es.flatMap moduleBytes).length))

/-- **Exactly which buffers make `Bundle.parse` raise.** -/
theorem parse_raises_iff {Y : Yojson} {s : Str} :
    (parse Y s).Raises ↔ ∃ h m n, RaisesAt Y s h m n := by
  unfold parse
  rw [Outcome.raises_bind_of_returns (readPreamble_returns s)]
  constructor
  · rintro ⟨⟨h, m, n, off⟩, hpre, hraise⟩
    obtain ⟨hh, hm, hn, hseg, rfl⟩ := readPreamble_eq_ok.1 hpre
    have hle : (preamble h m n).length ≤ s.length := by simpa using hseg.le
    rcases Outcome.raises_bind.1 hraise with hjson | ⟨⟨hj, mv, mj⟩, hjson, hmods⟩
    · obtain ⟨hhead, j, hj, hr⟩ := parseJson_raises.1 hjson
      exact ⟨h, m, n, hh, hm, hn, hseg, hhead, j, hj, Or.inl hr⟩
    · obtain ⟨⟨j, hfrom, hcj⟩, j', hfrom', hmv, hmj⟩ := parseJson_eq_ok.1 hjson
      rcases Outcome.raises_bind.1 hmods with hread | ⟨⟨ms, off'⟩, _, hfoot⟩
      · obtain ⟨es, hlen, hfits, hchain, hsegs, hshort⟩ := (readModules_raises hle).1 hread
        rw [length_preamble] at hsegs hshort
        exact ⟨h, m, n, hh, hm, hn, hseg, ⟨j, _, hfrom, hcj⟩, j', hfrom',
          Or.inr ⟨⟨mv, hmv⟩, ⟨mj, hmj⟩, es, hlen, hfits, hchain, hsegs, hshort⟩⟩
      · obtain ⟨_, _, hlast⟩ := (Outcome.raises_bind_of_returns (parseFooter_returns _ _ _)).1 hfoot
        exact absurd hlast (Outcome.raises_ok _)
  · rintro ⟨h, m, n, hR⟩
    have hle : (preamble h m n).length ≤ s.length := by simpa using hR.preamble.le
    refine ⟨(h, m, n, _), readPreamble_eq_ok.2 ⟨hR.header_lt, hR.manifest_lt, hR.count_le, hR.preamble, rfl⟩, ?_⟩
    obtain ⟨j', hfrom', hr | ⟨⟨mv, hmv⟩, ⟨mj, hmj⟩, es, hlen, hfits, hchain, hsegs, hshort⟩⟩ := hR.reaches
    · exact Outcome.raises_bind.2 (Or.inl (parseJson_raises.2 ⟨hR.header, j', hfrom', hr⟩))
    · obtain ⟨j, hj, hfrom, hcj⟩ := hR.header
      rw [← length_preamble h m n] at hsegs hshort
      refine Outcome.raises_bind.2 (Or.inr ⟨(hj, mv, mj),
        parseJson_eq_ok.2 ⟨⟨j, hfrom, hcj⟩, j', hfrom', hmv, hmj⟩, Outcome.raises_bind.2 (Or.inl ?_)⟩)
      exact (readModules_raises hle).2 ⟨es, hlen, hfits, hchain, hsegs, hshort⟩

end Bundle

theorem Manifest.parseString_raises_iff {Y : Yojson} {s : Str} :
    (Manifest.parseString Y s).Raises ↔ ∃ j, Y.fromString s = .ok j ∧ Manifest.ParseRaises j := by
  unfold Manifest.parseString
  split
  · rename_i j hj
    simp [hj, Manifest.parse_raises_iff]
  · rename_i e he
    simp [he]

/-- **When no exception escapes from the two parsers**: exactly when the bytes are neither a bundle
that reaches one of the two raising calls nor a manifest that does. -/
theorem parsers_return_iff (Y : Yojson) (s : Str) :
    ((Bundle.parse Y s).Returns ∧ (Manifest.parseString Y s).Returns) ↔
      (¬ ∃ h m n, Bundle.RaisesAt Y s h m n) ∧ ¬ ∃ j, Y.fromString s = .ok j ∧ Manifest.ParseRaises j := by
  rw [← Outcome.not_raises_iff, ← Outcome.not_raises_iff, Bundle.parse_raises_iff,
    Manifest.parseString_raises_iff]

/-- A manifest cut down to what is read up to the entrypoint, here three bytes long. -/
def shortEntrypoint : CanonicalJson :=
  .object [(str "entrypoint", .string (str "abc")), (str "name", .string (str "f")),
    (str "schemaVersion", .int 1)]

/-- A reader that knows the text of `shortEntrypoint`. -/
def shortEntrypointYojson : Yojson where
  fromString s :=
    if s = shortEntrypoint.toString then .ok (CanonicalJson.jsonTree shortEntrypoint.sort)
    else .error (str "Line 1, bytes 0-1: Invalid token")
  toString _ := []
  prettyToString _ := []

/-- On `{"entrypoint":"abc","name":"f","schemaVersion":1}` `Manifest.parse_string` raises
`Invalid_argument "String.sub / Bytes.sub"`. -/
theorem short_entrypoint_raises :
    ¬ ((Bundle.parse shortEntrypointYojson shortEntrypoint.toString).Returns ∧
        (Manifest.parseString shortEntrypointYojson shortEntrypoint.toString).Returns) := by
  rintro ⟨_, h⟩
  have hraised : Manifest.parseString shortEntrypointYojson shortEntrypoint.toString =
      .raised (.invalidArgument (str "String.sub / Bytes.sub")) := by decide +kernel
  exact h _ hraised

end MirageLambda
