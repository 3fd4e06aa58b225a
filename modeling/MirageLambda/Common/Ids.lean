import MirageLambda.Common.Error

/-!
# Validated identifiers (common/ids.ml)

Each identifier module is a check on the raw string; its type is `OCaml.Checked` of that check, so
a value of `TenantId`, `Digest`, … always holds a string the constructor accepted. The six slug
types come from one functor (`Slug (N)`, ids.ml:58) and differ by their label.

`ModulePath` is the one constructor that can raise: `String.sub s (len - 4) 4` (ids.ml:211) is
reached with `len = 3`. `modulePathCheck_raised_iff` says on exactly which strings.
-/

namespace MirageLambda
open OCaml

def isLowerAlpha (c : UInt8) : Bool := chr 'a' ≤ c && c ≤ chr 'z'
def isDigit (c : UInt8) : Bool := chr '0' ≤ c && c ≤ chr '9'
def isAlnum (c : UInt8) : Bool := isLowerAlpha c || isDigit c
def isHyphen (c : UInt8) : Bool := c == chr '-'

/-- The `String.iter … raise Exit` loops: the first byte that is not allowed. -/
def firstBad (allowed : UInt8 → Bool) (s : Str) : Option UInt8 := s.find? fun c => !allowed c

theorem firstBad_eq_none {allowed : UInt8 → Bool} {s : Str} :
    firstBad allowed s = none ↔ ∀ c ∈ s, allowed c = true := by
  simp [firstBad]

theorem not_forall_of_firstBad {allowed : UInt8 → Bool} {s : Str} {c : UInt8} (h : firstBad allowed s = some c) :
    ¬ ∀ c ∈ s, allowed c = true := by
  intro hall
  rw [firstBad_eq_none.2 hall] at h
  cases h

/-! ## Slugs -/

/-- `validate_slug ~label` (ids.ml:30). -/
def validateSlug (label s : Str) : Outcome Validation Unit :=
  let len := s.length
  if len = 0 then .error ⟨label, str "empty"⟩
  else if len > 63 then .error ⟨label, str "length " ++ decimal len ++ str " > 63"⟩
  else if !isAlnum (byteAt s 0) then .error ⟨label, str "must start alphanumeric"⟩
  else if !isAlnum (byteAt s (len - 1)) then .error ⟨label, str "must end alphanumeric"⟩
  else match firstBad (fun c => isAlnum c || isHyphen c) s with
    | some c => .error ⟨label, str "illegal character " ++ camlChar c ++ str " (allowed: a-z 0-9 -)"⟩
    | none =>
      if s = str "--" ∨ s = str "-" then .error ⟨label, str "must contain an alphanumeric char"⟩
      else .ok ()

/-- `Slug (N).t` for the module with label `N.label`. -/
abbrev Slug (label : Str) : Type := Checked (validateSlug label)

/-- `Slug (N).of_string`. -/
def Slug.ofString (label s : Str) : Outcome Validation (Slug label) := Checked.ofString (validateSlug label) s

/-- `Slug (N).of_string_exn`. -/
def Slug.ofStringExn {ε : Type} (label s : Str) : Outcome ε (Slug label) :=
  Checked.ofStringExn Validation.toString (validateSlug label) s

abbrev FunctionName : Type := Slug (str "name")
abbrev TenantId : Type := Slug (str "tenant")
abbrev Alias : Type := Slug (str "alias")
abbrev StoreId : Type := Slug (str "store")
abbrev LogStream : Type := Slug (str "stream")
abbrev Qualifier : Type := Slug (str "qualifier")

def FunctionName.ofString : Str → Outcome Validation FunctionName := Slug.ofString (str "name")
def TenantId.ofString : Str → Outcome Validation TenantId := Slug.ofString (str "tenant")
def Alias.ofString : Str → Outcome Validation Alias := Slug.ofString (str "alias")
def StoreId.ofString : Str → Outcome Validation StoreId := Slug.ofString (str "store")
def Qualifier.ofString : Str → Outcome Validation Qualifier := Slug.ofString (str "qualifier")
def Qualifier.ofStringExn {ε : Type} : Str → Outcome ε Qualifier := Slug.ofStringExn (str "qualifier")

/-- What `validate_slug` accepts does not depend on the label. -/
def IsSlug (s : Str) : Prop :=
  s.length ≠ 0 ∧ s.length ≤ 63 ∧ isAlnum (byteAt s 0) = true ∧ isAlnum (byteAt s (s.length - 1)) = true ∧
    ∀ c ∈ s, (isAlnum c || isHyphen c) = true

theorem validateSlug_eq_ok {label s : Str} : validateSlug label s = .ok () ↔ IsSlug s := by
  unfold validateSlug IsSlug
  simp only []
  split
  · simp_all
  split
  · rename_i h
    simp only [reduceCtorEq, false_iff, not_and]
    omega
  split
  · simp_all
  split
  · simp_all
  split
  · rename_i c hc
    have hne : ¬ ∀ c ∈ s, (isAlnum c || isHyphen c) = true := not_forall_of_firstBad hc
    simp only [reduceCtorEq, false_iff]
    exact fun h => hne h.2.2.2.2
  · rename_i h0 h1 h2 h3 _ hnone
    rw [firstBad_eq_none] at hnone
    split
    · -- `"-"` and `"--"` do not start with an alphanumeric byte: the last check never fires
      rename_i hs
      rcases hs with rfl | rfl <;> exact absurd h2 (by decide)
    · simp only [true_iff]
      exact ⟨h0, by omega, by simpa using h2, by simpa using h3, hnone⟩

theorem validateSlug_returns (label s : Str) : (validateSlug label s).Returns := by
  unfold validateSlug
  simp only []
  repeat' split
  all_goals simp

theorem Slug.isSlug {label : Str} (v : Slug label) : IsSlug v.toStr := validateSlug_eq_ok.1 v.2

/-- A slug of one kind is accepted as a slug of every other kind. -/
theorem Slug.ofString_of_isSlug (label : Str) {s : Str} (h : IsSlug s) :
    ∃ v : Slug label, v.toStr = s ∧ Slug.ofString label s = .ok v :=
  ⟨⟨s, validateSlug_eq_ok.2 h⟩, rfl, Checked.ofString_eq_ok.2 rfl⟩

/-! ## Binding names -/

/-- `Binding_name.is_ident_start` (ids.ml:84). -/
def isIdentStart (c : UInt8) : Bool :=
  (chr 'a' ≤ c && c ≤ chr 'z') || (chr 'A' ≤ c && c ≤ chr 'Z') || c == chr '_'

/-- `Binding_name.is_ident_char` (ids.ml:85). -/
def isIdentChar (c : UInt8) : Bool := isIdentStart c || (chr '0' ≤ c && c ≤ chr '9')

/-- `Binding_name.of_string` (ids.ml:86). -/
def bindingNameCheck (s : Str) : Outcome Validation Unit :=
  let label := str "binding"
  let len := s.length
  if len = 0 then .error ⟨label, str "empty"⟩
  else if len > 63 then .error ⟨label, str "length " ++ decimal len ++ str " > 63"⟩
  else if !isIdentStart (byteAt s 0) then .error ⟨label, str "must start with a letter or _"⟩
  else match firstBad isIdentChar s with
    | some c => .error ⟨label, str "illegal character " ++ camlChar c ++ str " (allowed: a-zA-Z0-9 _)"⟩
    | none => .ok ()

abbrev BindingName : Type := Checked bindingNameCheck

def BindingName.ofString (s : Str) : Outcome Validation BindingName := Checked.ofString bindingNameCheck s
def BindingName.ofStringExn {ε : Type} (s : Str) : Outcome ε BindingName :=
  Checked.ofStringExn Validation.toString bindingNameCheck s

theorem bindingNameCheck_eq_ok {s : Str} :
    bindingNameCheck s = .ok () ↔
      s.length ≠ 0 ∧ s.length ≤ 63 ∧ isIdentStart (byteAt s 0) = true ∧ ∀ c ∈ s, isIdentChar c = true := by
  unfold bindingNameCheck
  simp only []
  split
  · simp_all
  split
  · rename_i h
    simp only [reduceCtorEq, false_iff, not_and]
    omega
  split
  · simp_all
  split
  · rename_i c hc
    have hne : ¬ ∀ c ∈ s, isIdentChar c = true := not_forall_of_firstBad hc
    simp only [reduceCtorEq, false_iff]
    exact fun h => hne h.2.2.2
  · rename_i h0 h1 h2 _ hnone
    rw [firstBad_eq_none] at hnone
    simp only [true_iff]
    exact ⟨h0, by omega, by simpa using h2, hnone⟩

theorem bindingNameCheck_returns (s : Str) : (bindingNameCheck s).Returns := by
  unfold bindingNameCheck
  simp only []
  repeat' split
  all_goals simp

/-! ## Digests -/

/-- `Digest.is_hex` (ids.ml:112). -/
def isHex (c : UInt8) : Bool := (chr '0' ≤ c && c ≤ chr '9') || (chr 'a' ≤ c && c ≤ chr 'f')

/-- `Digest.of_string` (ids.ml:114). -/
def digestCheck (s : Str) : Outcome Validation Unit :=
  if s.length ≠ 64 then .error ⟨str "digest", str "must be 64 hex chars"⟩
  else match firstBad isHex s with
    | some c => .error ⟨str "digest", str "non-hex character " ++ camlChar c⟩
    | none => .ok ()

abbrev Digest : Type := Checked digestCheck

def Digest.ofString (s : Str) : Outcome Validation Digest := Checked.ofString digestCheck s

theorem digestCheck_eq_ok {s : Str} :
    digestCheck s = .ok () ↔ s.length = 64 ∧ ∀ c ∈ s, isHex c = true := by
  unfold digestCheck
  split
  · simp_all
  split
  · rename_i c hc
    have hne : ¬ ∀ c ∈ s, isHex c = true := not_forall_of_firstBad hc
    simp only [reduceCtorEq, false_iff]
    exact fun h => hne h.2
  · rename_i hl _ hnone
    rw [firstBad_eq_none] at hnone
    simp only [true_iff]
    exact ⟨by simpa using hl, hnone⟩

theorem Digest.length_toStr (d : Digest) : d.toStr.length = 64 := (digestCheck_eq_ok.1 d.2).1

/-- A slug is at most 63 bytes long, a digest exactly 64: no string is both. -/
theorem digest_not_slug {label : Str} (d : Digest) (v : Slug label) : d.toStr ≠ v.toStr := by
  intro h
  have h1 := d.length_toStr
  have h2 := v.isSlug.2.1
  rw [h] at h1
  omega

/-- The loop of `Digest.constant_time_equal` and of `Bundle.ct_eq_bytes`: `or` of the pairwise
`xor`s over the indices of `a`. -/
def ctAccumulate (a b : Str) : Nat :=
  (List.range a.length).foldl (fun acc i => acc ||| ((byteAt a i).toNat ^^^ (byteAt b i).toNat)) 0

/-- `Digest.constant_time_equal` on raw strings (ids.ml:130). -/
def constantTimeEqual (a b : Str) : Bool :=
  if a.length ≠ b.length then false else ctAccumulate a b == 0

/-! ## Key prefixes -/

/-- `Key_prefix.is_seg_char` (ids.ml:147). -/
def isSegChar (c : UInt8) : Bool := isAlnum c || isHyphen c || c == chr '/' || c == chr '_'

/-- `Key_prefix.of_string` (ids.ml:148). A single trailing empty segment is dropped before the
segments are checked. -/
def keyPrefixCheck (s : Str) : Outcome Validation Unit :=
  let len := s.length
  if len = 0 then .ok ()
  else if len > 255 then .error ⟨str "prefix", str "too long (>255)"⟩
  else match firstBad isSegChar s with
    | some c => .error ⟨str "prefix", str "illegal character " ++ camlChar c⟩
    | none =>
      let segs := splitOnChar (chr '/') s
      let segs := match segs.reverse with
        | [] :: r :: rest => (r :: rest).reverse
        | _ => segs
      if segs.any fun seg => seg == [] || seg == str ".." || seg == str "." then
        .error ⟨str "prefix", str "empty/./.. segment"⟩
      else .ok ()

abbrev KeyPrefix : Type := Checked keyPrefixCheck

def KeyPrefix.ofString (s : Str) : Outcome Validation KeyPrefix := Checked.ofString keyPrefixCheck s

theorem keyPrefixCheck_returns (s : Str) : (keyPrefixCheck s).Returns := by
  unfold keyPrefixCheck
  simp only []
  repeat' split
  all_goals simp

/-! ## Module paths -/

/-- `Module_path.is_path_char` (ids.ml:189). -/
def isPathChar (c : UInt8) : Bool :=
  isAlnum c || isHyphen c || c == chr '_' || c == chr '/' || c == chr '.' || c == chr ':'

/-- `ends_ok` (ids.ml:211-214), evaluated left to right: the second `String.sub` is reached when
the first one is not `.js`, also for a string of three bytes. -/
def endsOk (s : Str) : Outcome Validation Bool := do
  let len : Int := s.length
  let isCap ← if s.length ≥ 4 then (do let p ← sub s 0 4; pure (p == str "cap:")) else pure false
  if isCap then pure true
  else if len ≥ 3 then do
    let a ← sub s (len - 3) 3
    if a == str ".js" then pure true
    else do
      let b ← sub s (len - 4) 4
      pure (b == str ".mjs")
  else pure false

/-- `Module_path.of_string` (ids.ml:191). The backslash test of the loop is subsumed: a backslash is
not a path character and both exits report it. -/
def modulePathCheck (s : Str) : Outcome Validation Unit :=
  if s.length = 0 then .error ⟨str "path", str "empty"⟩
  else if byteAt s 0 = chr '/' then .error ⟨str "path", str "absolute path rejected"⟩
  else match firstBad isPathChar s with
    | some c => .error ⟨str "path", str "illegal character " ++ camlChar c⟩
    | none =>
      if (splitOnChar (chr '/') s).any fun seg => seg == str ".." || seg == str "." then
        .error ⟨str "path", str "'.' or '..' segment rejected"⟩
      else do
        let ok ← endsOk s
        if ok then pure ()
        else .error ⟨str "path", str "module must end in .js/.mjs (or be cap:)"⟩

abbrev ModulePath : Type := Checked modulePathCheck

def ModulePath.ofString (s : Str) : Outcome Validation ModulePath := Checked.ofString modulePathCheck s

/-- The strings that reach `String.sub s (-1) 4`: three path characters, relative, without a `.` or
`..` segment, other than `.js`. -/
def ShortPath (s : Str) : Prop :=
  s.length = 3 ∧ s ≠ str ".js" ∧ byteAt s 0 ≠ chr '/' ∧ (∀ c ∈ s, isPathChar c = true) ∧
    ∀ seg ∈ splitOnChar (chr '/') s, seg ≠ str ".." ∧ seg ≠ str "."

instance : DecidablePred ShortPath := fun s =>
  decidable_of_iff ((s.length == 3 && s != str ".js" && byteAt s 0 != chr '/' && s.all isPathChar &&
    (splitOnChar (chr '/') s).all fun seg => seg != str ".." && seg != str ".") = true) (by
      simp [ShortPath, and_assoc])

theorem endsOk_raised_iff {s : Str} : (∃ e, endsOk s = .raised e) ↔ s.length = 3 ∧ s ≠ str ".js" := by
  unfold endsOk
  have hcap : ∀ h : s.length ≥ 4, (sub s 0 4 : Outcome Validation Str) = .ok (s.take 4) := by
    intro h
    have := sub_nat (ε := Validation) (s := s) 0 4 (by omega)
    simpa using this
  have hsub : ∀ k : Nat, k ≤ s.length →
      (sub s ((s.length : Int) - k) k : Outcome Validation Str) = .ok (s.drop (s.length - k)) := by
    intro k hk
    have := sub_nat (ε := Validation) (s := s) (s.length - k) k (by omega)
    rw [Nat.cast_sub hk] at this
    rw [this, List.take_of_length_le (by simp; omega)]
  by_cases h4 : s.length ≥ 4
  · -- both suffixes exist: nothing raises
    have h3 : (s.length : Int) ≥ 3 := by omega
    have e3 := hsub 3 (by omega)
    have e4 := hsub 4 (by omega)
    simp only [Nat.cast_ofNat] at e3 e4
    simp only [h4, if_true, hcap h4, e3, e4, h3, Outcome.ok_bind, Outcome.pure_eq]
    constructor
    · rintro ⟨e, he⟩
      repeat' split at he
      all_goals simp at he
    · omega
  · simp only [h4, if_false, Outcome.pure_eq, Outcome.ok_bind, Bool.false_eq_true]
    by_cases h3 : s.length = 3
    · -- the whole string is the `.js` suffix test; failing it, `String.sub s (-1) 4` raises
      have e3 := hsub 3 (by omega)
      simp only [Nat.cast_ofNat, h3, Nat.sub_self, List.drop_zero] at e3
      have e4 : (sub s ((s.length : Int) - 4) 4 : Outcome Validation Str) =
          .raised (.invalidArgument (str "String.sub / Bytes.sub")) := by
        unfold sub
        rw [if_neg (by omega)]
      rw [h3, Nat.cast_ofNat] at e4
      simp only [h3, Nat.cast_ofNat, ge_iff_le, le_refl, if_true, e3, e4, Outcome.ok_bind,
        Outcome.raised_bind, beq_iff_eq, true_and]
      split
      · simp_all
      · simp_all
    · have : ¬ (s.length : Int) ≥ 3 := by omega
      simp [this, h3]

/-- **`Module_path.of_string` raises on exactly the short paths** (ids.ml:211). -/
theorem modulePathCheck_raised_iff {s : Str} : (∃ e, modulePathCheck s = .raised e) ↔ ShortPath s := by
  unfold modulePathCheck ShortPath
  split
  · rename_i h
    simp only [reduceCtorEq, exists_false, false_iff]
    omega
  split
  · simp_all
  split
  · rename_i c hc
    have hne : ¬ ∀ c ∈ s, isPathChar c = true := not_forall_of_firstBad hc
    simp only [reduceCtorEq, exists_false, false_iff]
    exact fun h => hne h.2.2.2.1
  · rename_i h0 h1 _ hnone
    rw [firstBad_eq_none] at hnone
    split
    · rename_i hseg
      simp only [List.any_eq_true, Bool.or_eq_true, beq_iff_eq] at hseg
      obtain ⟨seg, hm, hd⟩ := hseg
      simp only [reduceCtorEq, exists_false, false_iff]
      intro h
      have := h.2.2.2.2 seg hm
      rcases hd with hd | hd
      · exact this.1 hd
      · exact this.2 hd
    · rename_i hseg
      simp only [List.any_eq_true, Bool.or_eq_true, beq_iff_eq, not_exists, not_and, not_or] at hseg
      have key : (∃ e, (do
          let ok ← endsOk s
          if ok then pure ()
          else .error ⟨str "path", str "module must end in .js/.mjs (or be cap:)"⟩ :
            Outcome Validation Unit) = .raised e) ↔ ∃ e, endsOk s = .raised e := by
        constructor
        · rintro ⟨e, he⟩
          rcases Outcome.bind_eq_raised.1 he with h | ⟨b, _, h⟩
          · exact ⟨e, h⟩
          · cases b <;> simp at h
        · rintro ⟨e, he⟩
          exact ⟨e, by simp [he]⟩
      rw [key, endsOk_raised_iff]
      exact ⟨fun h => ⟨h.1, h.2, h1, hnone, hseg⟩, fun h => ⟨h.1, h.2.1⟩⟩

theorem modulePathCheck_returns {s : Str} : (modulePathCheck s).Returns ↔ ¬ ShortPath s := by
  rw [← modulePathCheck_raised_iff, ← Outcome.not_returns_iff, not_not]

example : ¬ (ModulePath.ofString (str "abc")).Returns := by
  rw [ModulePath.ofString, Checked.ofString_returns, modulePathCheck_returns]
  decide +kernel

theorem ModulePath.length_pos (p : ModulePath) : 0 < p.toStr.length := by
  have h := p.2
  unfold modulePathCheck at h
  split at h
  · cases h
  · exact Nat.pos_of_ne_zero (by assumption)

end MirageLambda
