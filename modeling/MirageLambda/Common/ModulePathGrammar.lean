import MirageLambda.Common.Ids
import MirageLambda.Lib.Paths

/-!
# What `Module_path.of_string` accepts (common/ids.ml:191)

`Grammar` is the normalized form that the comment above the module describes and the guide requires (§10.4): segments
joined by `/`, none of them empty, `.` or `..`, and a module extension or a `cap:` prefix. The code agrees with it but for
two slips.

* The test for an empty segment is missing, although `Key_prefix` next to it has one: a `Redundant` path, such as `a//b.js`,
  is accepted beside `a/b.js`.
* `String.sub s (len - 4) 4` is reached with three bytes, and raises: the `ShortPath`s.

`Exact` is agreement on one string; `exact_iff` and `meetsGrammar_iff` say that these two are all.
-/

namespace MirageLambda
open OCaml

namespace ModulePath

/-! ## The grammar -/

/-- `a-z 0-9 - _ . :`. -/
def isSegmentChar (c : UInt8) : Bool := isAlnum c || isHyphen c || c == chr '_' || c == chr '.' || c == chr ':'

structure IsSegment (seg : Str) : Prop where
  chars : ∀ c ∈ seg, isSegmentChar c = true
  not_dot : seg ≠ str "."
  not_up : seg ≠ str ".."

/-- The path of `/`-separated segments. -/
def join (segs : List Str) : Str := [chr '/'].intercalate segs

/-- A module extension, or a virtual module. -/
def EndsAsModule (s : Str) : Prop := str ".js" <:+ s ∨ str ".mjs" <:+ s ∨ str "cap:" <+: s

/-- One or more segments, none of them empty. -/
def Grammar (s : Str) : Prop :=
  ∃ segs, segs ≠ [] ∧ (∀ seg ∈ segs, seg ≠ [] ∧ IsSegment seg) ∧ s = join segs ∧ EndsAsModule s

/-- The same with empty segments after the first. -/
def Redundant (s : Str) : Prop :=
  ∃ first rest, first ≠ [] ∧ [] ∈ rest ∧ (∀ seg ∈ first :: rest, IsSegment seg) ∧ s = join (first :: rest) ∧ EndsAsModule s

/-- The file that a path names: its segments, without the empty ones. -/
def file (s : Str) : List Str := (splitOnChar (chr '/') s).filter fun seg => seg != []

/-! ## The extension -/

theorem endsOk_eq_ok {s : Str} : endsOk s = .ok true ↔ EndsAsModule s := by
  have hsub : ∀ n : Nat, n ≤ s.length →
      (sub s ((s.length : Int) - n) n : Outcome Validation Str) = .ok (s.drop (s.length - n)) := by
    intro n hn
    have h := sub_nat (ε := Validation) (s := s) (s.length - n) n (by omega)
    rwa [Nat.cast_sub hn, List.take_of_length_le (by simp; omega)] at h
  have hjs : str ".js" <:+ s ↔ s.drop (s.length - 3) = str ".js" := List.suffix_iff_eq_drop.trans eq_comm
  have hmjs : str ".mjs" <:+ s ↔ s.drop (s.length - 4) = str ".mjs" := List.suffix_iff_eq_drop.trans eq_comm
  have hcap : str "cap:" <+: s ↔ s.take 4 = str "cap:" := List.prefix_iff_eq_take.trans eq_comm
  have hlenOf : ∀ {t : Str}, str "cap:" <+: t ∨ str ".mjs" <:+ t → 4 ≤ t.length := by
    rintro t (h | h)
    · exact h.length_le
    · exact h.length_le
  unfold endsOk EndsAsModule
  by_cases h4 : s.length ≥ 4
  · have hsubcap : (sub s 0 4 : Outcome Validation Str) = .ok (s.take 4) := by
      have h := sub_nat (ε := Validation) (s := s) 0 4 (by omega)
      simpa using h
    have h3 : (s.length : Int) ≥ 3 := by omega
    have e3 := hsub 3 (by omega)
    have e4 := hsub 4 (by omega)
    simp only [Nat.cast_ofNat] at e3 e4
    simp only [h4, h3, if_true, hsubcap, e3, e4, Outcome.ok_bind, Outcome.pure_eq, beq_iff_eq, hjs, hmjs, hcap]
    by_cases hc : s.take 4 = str "cap:"
    · simp [hc]
    · by_cases hj : s.drop (s.length - 3) = str ".js"
      · simp [hj]
      · simp [hc, hj]
  · have hno4 : ¬ (str ".mjs" <:+ s ∨ str "cap:" <+: s) := fun h => h4 (hlenOf h.symm)
    by_cases h3 : s.length ≥ 3
    · have h3' : (s.length : Int) ≥ 3 := by omega
      have e3 := hsub 3 (by omega)
      simp only [Nat.cast_ofNat] at e3
      have e4 : (sub s ((s.length : Int) - 4) 4 : Outcome Validation Str) =
          .raised (.invalidArgument (str "String.sub / Bytes.sub")) := by
        unfold sub
        rw [if_neg (by omega)]
      by_cases hj : s.drop (s.length - 3) = str ".js"
      · simp [h4, h3', e3, e4, hjs, hj]
      · simp [h4, h3', e3, e4, hjs, hj, hno4]
    · have h3' : ¬ (s.length : Int) ≥ 3 := by omega
      have hnojs : ¬ str ".js" <:+ s := fun h => h3 h.length_le
      simp [h4, h3', hnojs, hno4]

theorem modulePathCheck_eq_ok {s : Str} : modulePathCheck s = .ok () ↔
    s.length ≠ 0 ∧ byteAt s 0 ≠ chr '/' ∧ (∀ c ∈ s, isPathChar c = true) ∧
      (∀ seg ∈ splitOnChar (chr '/') s, seg ≠ str "." ∧ seg ≠ str "..") ∧ EndsAsModule s := by
  have hsegs : ((splitOnChar (chr '/') s).any fun seg => seg == str ".." || seg == str ".") = false ↔
      ∀ seg ∈ splitOnChar (chr '/') s, seg ≠ str "." ∧ seg ≠ str ".." := by
    simp only [List.any_eq_false, Bool.or_eq_true, beq_iff_eq, not_or]
    exact forall₂_congr fun seg _ => and_comm
  rw [← endsOk_eq_ok, ← hsegs, ← firstBad_eq_none]
  unfold modulePathCheck
  by_cases hlen : s.length = 0
  · simp [hlen]
  by_cases habs : byteAt s 0 = chr '/'
  · simp only [hlen, habs, if_false, if_true, reduceCtorEq, ne_eq, not_true_eq_false, false_and, and_false]
  cases hbad : firstBad isPathChar s with
  | some c => simp [hlen, habs]
  | none =>
    cases hany : (splitOnChar (chr '/') s).any fun seg => seg == str ".." || seg == str "." with
    | true => simp [hlen, habs]
    | false =>
      simp only [hlen, habs, if_false, Bool.false_eq_true, ne_eq, not_false_eq_true, true_and]
      rw [Outcome.bind_eq_ok]
      constructor
      · rintro ⟨b, hb, hok⟩
        cases b with
        | true => exact hb
        | false => simp at hok
      · intro h
        exact ⟨true, h, by simp⟩

/-! ## By segments -/

theorem isPathChar_iff {c : UInt8} : isPathChar c = true ↔ (c ≠ chr '/' → isSegmentChar c = true) := by
  have hslash : isPathChar (chr '/') = true := by decide
  by_cases hc : c = chr '/'
  · simp [hc, hslash]
  · simp [isPathChar, isSegmentChar, hc]

/-- **Accepted**: a non-empty first segment, characters and segments of the grammar, and the extension. -/
theorem accepts_iff {s : Str} : modulePathCheck s = .ok () ↔
    (splitOnChar (chr '/') s).head? ≠ some [] ∧ (∀ seg ∈ splitOnChar (chr '/') s, IsSegment seg) ∧ EndsAsModule s := by
  have hhead : (splitOnChar (chr '/') s).head? ≠ some [] ↔ s.length ≠ 0 ∧ byteAt s 0 ≠ chr '/' := by
    rw [ne_eq, head?_splitOnChar_eq_nil]
    cases s <;> simp [byteAt]
  have hchars : (∀ c ∈ s, isPathChar c = true) ↔
      ∀ seg ∈ splitOnChar (chr '/') s, ∀ c ∈ seg, isSegmentChar c = true := by
    rw [forall_mem_splitOnChar]
    exact forall₂_congr fun c _ => isPathChar_iff
  have hsegs : (∀ seg ∈ splitOnChar (chr '/') s, IsSegment seg) ↔
      (∀ seg ∈ splitOnChar (chr '/') s, ∀ c ∈ seg, isSegmentChar c = true) ∧
        ∀ seg ∈ splitOnChar (chr '/') s, seg ≠ str "." ∧ seg ≠ str ".." := by
    rw [← forall₂_and]
    exact forall₂_congr fun seg _ => ⟨fun h => ⟨h.chars, h.not_dot, h.not_up⟩, fun h => ⟨h.1, h.2.1, h.2.2⟩⟩
  rw [modulePathCheck_eq_ok, hhead, hsegs, hchars, and_assoc, and_assoc]

theorem IsSegment.not_mem {seg : Str} (h : IsSegment seg) : chr '/' ∉ seg := by
  intro hmem
  have hchar := h.chars _ hmem
  revert hchar
  decide

theorem splitOnChar_join {segs : List Str} (hne : segs ≠ []) (h : ∀ seg ∈ segs, IsSegment seg) :
    splitOnChar (chr '/') (join segs) = segs :=
  splitOnChar_intercalate (fun seg hseg => (h seg hseg).not_mem) hne

theorem grammar_iff {s : Str} :
    Grammar s ↔ (∀ seg ∈ splitOnChar (chr '/') s, seg ≠ [] ∧ IsSegment seg) ∧ EndsAsModule s := by
  constructor
  · rintro ⟨segs, hne, hsegs, rfl, hends⟩
    rw [splitOnChar_join hne fun seg hseg => (hsegs seg hseg).2]
    exact ⟨hsegs, hends⟩
  · rintro ⟨hsegs, hends⟩
    exact ⟨_, splitOnChar_ne_nil _ _, hsegs, (intercalate_splitOnChar _ s).symm, hends⟩

theorem redundant_iff {s : Str} : Redundant s ↔
    (splitOnChar (chr '/') s).head? ≠ some [] ∧ [] ∈ splitOnChar (chr '/') s ∧
      (∀ seg ∈ splitOnChar (chr '/') s, IsSegment seg) ∧ EndsAsModule s := by
  constructor
  · rintro ⟨first, rest, hfirst, hempty, hsegs, rfl, hends⟩
    rw [splitOnChar_join (List.cons_ne_nil _ _) hsegs]
    exact ⟨by simpa using hfirst, List.mem_cons_of_mem _ hempty, hsegs, hends⟩
  · rintro ⟨hhead, hempty, hsegs, hends⟩
    cases hsplit : splitOnChar (chr '/') s with
    | nil => exact absurd hsplit (splitOnChar_ne_nil _ _)
    | cons first rest =>
      rw [hsplit] at hhead hempty hsegs
      have hfirst : first ≠ [] := by simpa using hhead
      refine ⟨first, rest, hfirst, (List.mem_cons.1 hempty).resolve_left hfirst.symm, hsegs, ?_, hends⟩
      rw [join, ← hsplit, intercalate_splitOnChar]

/-- **What is accepted**: the grammar, and the redundant paths. -/
theorem accepts_iff_grammar {s : Str} : modulePathCheck s = .ok () ↔ Grammar s ∨ Redundant s := by
  rw [accepts_iff, grammar_iff, redundant_iff]
  constructor
  · rintro ⟨hhead, hsegs, hends⟩
    by_cases hempty : [] ∈ splitOnChar (chr '/') s
    · exact Or.inr ⟨hhead, hempty, hsegs, hends⟩
    · exact Or.inl ⟨fun seg hseg => ⟨fun hnil => hempty (hnil ▸ hseg), hsegs seg hseg⟩, hends⟩
  · rintro (⟨hsegs, hends⟩ | ⟨hhead, -, hsegs, hends⟩)
    · exact ⟨fun hhead => (hsegs [] (List.mem_of_head? hhead)).1 rfl, fun seg hseg => (hsegs seg hseg).2, hends⟩
    · exact ⟨hhead, hsegs, hends⟩

theorem Grammar.not_redundant {s : Str} (h : Grammar s) : ¬ Redundant s := by
  rw [redundant_iff]
  rintro ⟨-, hempty, -, -⟩
  exact ((grammar_iff.1 h).1 [] hempty).1 rfl

/-- A path of the grammar is its file. -/
theorem Grammar.join_file {s : Str} (h : Grammar s) : join (file s) = s := by
  have hfile : file s = splitOnChar (chr '/') s := by
    refine List.filter_eq_self.2 fun seg hseg => ?_
    simpa using ((grammar_iff.1 h).1 seg hseg).1
  rw [hfile, join, intercalate_splitOnChar]

/-! ## Agreement -/

/-- `Module_path.of_string s` returns, and returns `Ok s` exactly on the grammar. -/
structure Exact (s : Str) : Prop where
  returns : (ModulePath.ofString s).Returns
  accepts : (∃ p, ModulePath.ofString s = .ok p ∧ p.toStr = s) ↔ Grammar s

theorem exists_ofString_eq_ok {s : Str} :
    (∃ p, ModulePath.ofString s = .ok p ∧ p.toStr = s) ↔ modulePathCheck s = .ok () := by
  constructor
  · rintro ⟨p, -, rfl⟩
    exact p.2
  · intro h
    exact ⟨⟨s, h⟩, Checked.ofString_toStr ⟨s, h⟩, rfl⟩

theorem exact_iff {s : Str} : Exact s ↔ ¬ ShortPath s ∧ ¬ Redundant s := by
  rw [← modulePathCheck_returns]
  constructor
  · rintro ⟨hreturns, haccepts⟩
    refine ⟨Checked.ofString_returns.1 hreturns, fun hred => ?_⟩
    rw [exists_ofString_eq_ok, accepts_iff_grammar] at haccepts
    exact (haccepts.1 (Or.inr hred)).not_redundant hred
  · rintro ⟨hreturns, hred⟩
    refine ⟨Checked.ofString_returns.2 hreturns, ?_⟩
    rw [exists_ofString_eq_ok, accepts_iff_grammar]
    exact or_iff_left hred

/-- What is to hold of two strings: agreement on both, and if both are accepted as the same file, they are one. -/
structure MeetsGrammar (s s' : Str) : Prop where
  left : Exact s
  right : Exact s'
  one_path : (∃ p, ModulePath.ofString s = .ok p) → (∃ p, ModulePath.ofString s' = .ok p) → file s = file s' → s = s'

/-- **`Module_path.of_string` accepts the normalized paths**, as long as a string is neither too short nor redundant. -/
theorem meetsGrammar_iff (s s' : Str) :
    MeetsGrammar s s' ↔ (¬ ShortPath s ∧ ¬ Redundant s) ∧ ¬ ShortPath s' ∧ ¬ Redundant s' := by
  constructor
  · rintro ⟨hs, hs', -⟩
    exact ⟨exact_iff.1 hs, exact_iff.1 hs'⟩
  · rintro ⟨hs, hs'⟩
    have hgrammar : ∀ {t : Str}, ¬ Redundant t → (∃ p, ModulePath.ofString t = .ok p) → Grammar t := by
      rintro t hred ⟨p, hp⟩
      rw [ModulePath.ofString, Checked.ofString_eq_ok] at hp
      exact (accepts_iff_grammar.1 (exists_ofString_eq_ok.1 ⟨p, Checked.ofString_eq_ok.2 hp, hp⟩)).resolve_right hred
    refine ⟨exact_iff.2 hs, exact_iff.2 hs', fun haccepted haccepted' hfile => ?_⟩
    rw [← (hgrammar hs.2 haccepted).join_file, hfile, (hgrammar hs'.2 haccepted').join_file]

/-- Three path characters raise, and of two accepted paths to one file one has an empty segment. -/
theorem short_and_redundant_paths :
    ¬ (ModulePath.ofString (str "abc")).Returns ∧
      (∃ p, ModulePath.ofString (str "a//b.js") = .ok p) ∧ (∃ p, ModulePath.ofString (str "a/b.js") = .ok p) ∧
      file (str "a//b.js") = file (str "a/b.js") ∧ ¬ Grammar (str "a//b.js") ∧
      ¬ MeetsGrammar (str "a//b.js") (str "a/b.js") ∧ ¬ MeetsGrammar (str "abc") (str "abc") := by
  have hshort : ShortPath (str "abc") := by decide +kernel
  have haccepted : modulePathCheck (str "a//b.js") = .ok () := by decide +kernel
  have haccepted' : modulePathCheck (str "a/b.js") = .ok () := by decide +kernel
  have hsplit : splitOnChar (chr '/') (str "a//b.js") = [str "a", [], str "b.js"] := by decide +kernel
  have hnot : ¬ Grammar (str "a//b.js") := by
    rw [grammar_iff, hsplit]
    rintro ⟨hsegs, -⟩
    exact (hsegs [] (by simp)).1 rfl
  have hok : ∀ {t : Str}, modulePathCheck t = .ok () → ∃ p, ModulePath.ofString t = .ok p :=
    fun h => (exists_ofString_eq_ok.2 h).imp fun _ hp => hp.1
  refine ⟨?_, hok haccepted, hok haccepted', by decide +kernel, hnot, ?_, ?_⟩
  · rw [ModulePath.ofString, Checked.ofString_returns, modulePathCheck_returns, not_not]
    exact hshort
  · rintro ⟨hleft, -, -⟩
    exact hnot (hleft.accepts.1 (exists_ofString_eq_ok.2 haccepted))
  · rintro ⟨hleft, -, -⟩
    exact (exact_iff.1 hleft).1 hshort

end ModulePath
end MirageLambda
