import Mathlib.Data.List.GetD
import MirageLambda.Common.ModulePathGrammar

/-!
# The module loader (qjs/lib/qjs_module_loader.ml)

`normalize` takes an import relative to the module that has it; `resolve` looks the result up in the bundle. The walk
over the segments keeps a stack, with the directory of the importing module on it at the start. What it computes is
said without a stack by `Paths.Climbs` and `Paths.remaining`.
-/

namespace MirageLambda.ModuleLoader
open OCaml

/-! ## The code -/

def isRel (s : Str) : Bool := s.length ≥ 2 && s.take 2 = str "./"
def isRelParent (s : Str) : Bool := s.length ≥ 3 && s.take 3 = str "../"
def isCap (s : Str) : Bool := s.length ≥ 4 && s.take 4 = str "cap:"

/-- The error of an import that goes past the root. -/
def escapes : Validation := ⟨str "import", str "import escapes bundle root"⟩

/-- `walk` (qjs_module_loader.ml:25); the top of the stack comes first. -/
def walk : List Str → List Str → Outcome Validation (List Str)
  | acc, [] => .ok acc.reverse
  | acc, seg :: rest =>
    if seg = str "." then walk acc rest
    else if seg = str ".." then
      match acc with
      | _ :: prev => walk prev rest
      | [] => .error escapes
    else walk (seg :: acc) rest

/-- The path ends in `.js`. -/
def endsJs (path : Str) : Bool := path.length ≥ 3 && path.drop (path.length - 3) = str ".js"

/-- The extension rule (qjs_module_loader.ml:41-42). -/
def addJs (path : Str) : Str := if endsJs path then path else path ++ str ".js"

/-- `normalize` (qjs_module_loader.ml:13). -/
def normalize (base : ModulePath) (import_ : Str) : Outcome Validation ModulePath :=
  if isCap import_ then
    match ModulePath.ofString import_ with
    | .ok p => .ok p
    | .error _ => .error ⟨str "import", str "invalid cap: path"⟩
    | .raised x => .raised x
  else if !(isRel import_ || isRelParent import_) then
    .error ⟨str "import", str "only ./, ../, and cap: imports allowed"⟩
  else
    let baseSegs := splitOnChar (chr '/') base.toStr
    let baseDir := match baseSegs.reverse with
      | _ :: rest => rest.reverse
      | [] => []
    let impSegs := splitOnChar (chr '/') import_
    match walk baseDir.reverse impSegs with
    | .raised x => .raised x
    | .error e => .error e
    | .ok [] => .error ⟨str "import", str "empty normalized path"⟩
    | .ok segs => ModulePath.ofString (addJs ([chr '/'].intercalate segs))

/-- `resolve` (qjs_module_loader.ml:47). -/
def resolve (modules : List (ModulePath × Str)) (base : ModulePath) (import_ : Str) : Outcome Validation Str := do
  let normalized ← normalize base import_
  match modules.find? fun m => m.1.toStr == normalized.toStr with
  | some (_, content) => .ok content
  | none => .error ⟨str "import", str "module " ++ camlString normalized.toStr ++ str " not in bundle"⟩

/-! ## The walk -/

/-- The segments of a path. -/
def segments (path : Str) : List Str := splitOnChar (chr '/') path

/-- The directory of a module: its segments without the last. -/
def directory (base : ModulePath) : List Str := (segments base.toStr).dropLast

abbrev IsName : Str → Prop := Paths.IsName (str ".") (str "..")
abbrev Climbs : Nat → List Str → Prop := Paths.Climbs (str ".") (str "..")
noncomputable abbrev remaining : List Str → List Str := Paths.remaining (str ".") (str "..")

theorem walk_dot (acc rest : List Str) : walk acc (str "." :: rest) = walk acc rest := by
  cases acc <;> rfl

theorem walk_up_nil (rest : List Str) : walk [] (str ".." :: rest) = .error escapes := rfl

theorem walk_up_cons (seg : Str) (acc rest : List Str) : walk (seg :: acc) (str ".." :: rest) = walk acc rest := rfl

theorem walk_name {seg : Str} (h : IsName seg) (acc rest : List Str) :
    walk acc (seg :: rest) = walk (seg :: acc) rest := by
  cases acc <;> rw [walk.eq_def] <;> simp only [h.1, h.2, if_false]

/-- A segment is `.`, `..` or a name. -/
theorem segment_cases (seg : Str) : seg = str "." ∨ seg = str ".." ∨ IsName seg := by
  by_cases hdot : seg = str "."
  · exact Or.inl hdot
  · by_cases hup : seg = str ".."
    · exact Or.inr (Or.inl hup)
    · exact Or.inr (Or.inr ⟨hdot, hup⟩)

/-- **The stack walk computes what remains, and stops exactly when the path climbs.** The stack stands for the path
with its segments in order. -/
theorem walk_eq (acc : List Str) (hacc : ∀ seg ∈ acc, IsName seg) (segs : List Str) :
    (Climbs acc.length segs ∧ walk acc segs = .error escapes) ∨
      (¬ Climbs acc.length segs ∧ walk acc segs = .ok (remaining (acc.reverse ++ segs))) := by
  induction segs generalizing acc with
  | nil =>
    refine Or.inr ⟨Paths.climbs_nil _, ?_⟩
    rw [walk, List.append_nil, remaining, Paths.remaining_names fun seg hseg => hacc seg (List.mem_reverse.1 hseg)]
  | cons seg segs ih =>
    have hrev : ∀ seg ∈ acc.reverse, IsName seg := fun seg hseg => hacc seg (List.mem_reverse.1 hseg)
    obtain rfl | rfl | hname := segment_cases seg
    · rw [walk_dot, Climbs, remaining, Paths.climbs_dot (by decide), Paths.remaining_dot (by decide) hrev]
      exact ih acc hacc
    · cases acc with
      | nil => exact Or.inl ⟨Paths.climbs_up_zero, walk_up_nil segs⟩
      | cons top acc =>
        have hacc' : ∀ seg ∈ acc, IsName seg := fun seg hseg => hacc seg (List.mem_cons_of_mem _ hseg)
        have hrev' : ∀ seg ∈ acc.reverse, IsName seg := fun seg hseg => hacc' seg (List.mem_reverse.1 hseg)
        rw [walk_up_cons, Climbs, remaining, List.length_cons, Paths.climbs_up, List.reverse_cons, List.append_assoc,
          List.singleton_append, Paths.remaining_cancel hrev' (hacc top List.mem_cons_self)]
        exact ih acc hacc'
    · rw [walk_name hname, Climbs, remaining, Paths.climbs_name hname]
      have h := ih (seg :: acc) (List.forall_mem_cons.2 ⟨hname, hacc⟩)
      rwa [List.reverse_cons, List.append_assoc] at h

/-! ## What a module path is -/

theorem endsJs_addJs (path : Str) : endsJs (addJs path) = true := by
  unfold addJs
  by_cases h : endsJs path = true
  · rw [if_pos h]
    exact h
  · rw [if_neg h]
    simp [endsJs, str]

theorem addJs_of_endsJs {path : Str} (h : endsJs path = true) : addJs path = path := by
  rw [addJs, if_pos h]

/-- The path ends in `.mjs`. -/
def endsMjs (path : Str) : Bool := path.length ≥ 4 && path.drop (path.length - 4) = str ".mjs"

theorem isCap_iff {s : Str} : isCap s = true ↔ str "cap:" <+: s := by
  rw [isCap, Bool.and_eq_true, decide_eq_true_iff, decide_eq_true_iff]
  constructor
  · rintro ⟨-, htake⟩
    exact List.prefix_iff_eq_take.2 htake.symm
  · intro h
    exact ⟨h.length_le, (List.prefix_iff_eq_take.1 h).symm⟩

/-- The suffix test of the source, with the length of the suffix written out. -/
theorem suffix_test_iff {t s : Str} :
    (s.length ≥ t.length && s.drop (s.length - t.length) = t : Bool) = true ↔ t <:+ s := by
  rw [Bool.and_eq_true, decide_eq_true_iff, decide_eq_true_iff]
  constructor
  · rintro ⟨-, hdrop⟩
    exact List.suffix_iff_eq_drop.2 hdrop.symm
  · intro h
    exact ⟨h.length_le, (List.suffix_iff_eq_drop.1 h).symm⟩

theorem endsJs_iff {s : Str} : endsJs s = true ↔ str ".js" <:+ s := suffix_test_iff (t := str ".js")

theorem endsMjs_iff {s : Str} : endsMjs s = true ↔ str ".mjs" <:+ s := suffix_test_iff (t := str ".mjs")

theorem endsAsModule_iff {s : Str} :
    ModulePath.EndsAsModule s ↔ isCap s = true ∨ endsJs s = true ∨ endsMjs s = true := by
  rw [ModulePath.EndsAsModule, isCap_iff, endsJs_iff, endsMjs_iff]
  tauto

theorem modulePathCheck_eq_ok {s : Str} : modulePathCheck s = .ok () ↔
    s.length ≠ 0 ∧ byteAt s 0 ≠ chr '/' ∧ (∀ c ∈ s, isPathChar c = true) ∧ (∀ seg ∈ segments s, IsName seg) ∧
      (isCap s = true ∨ endsJs s = true ∨ endsMjs s = true) := by
  rw [ModulePath.modulePathCheck_eq_ok, endsAsModule_iff]
  rfl

/-- With its extension in place a path is refused for its characters or segments only, and the error says so. -/
theorem modulePathCheck_of_endsJs {s : Str} (hjs : endsJs s = true) :
    modulePathCheck s = .ok () ∨ ∃ e : Validation, modulePathCheck s = .error e ∧ e.field = str "path" := by
  have hends : endsOk s = .ok true := ModulePath.endsOk_eq_ok.2 (Or.inl (endsJs_iff.1 hjs))
  unfold modulePathCheck
  split
  · exact Or.inr ⟨_, rfl, rfl⟩
  split
  · exact Or.inr ⟨_, rfl, rfl⟩
  split
  · exact Or.inr ⟨_, rfl, rfl⟩
  split
  · exact Or.inr ⟨_, rfl, rfl⟩
  · rw [hends]
    exact Or.inl rfl

/-! ## Normalizing -/

theorem modulePath_spec (p : ModulePath) :
    p.toStr.length ≠ 0 ∧ byteAt p.toStr 0 ≠ chr '/' ∧ (∀ c ∈ p.toStr, isPathChar c = true) ∧
      (∀ seg ∈ segments p.toStr, IsName seg) ∧
      (isCap p.toStr = true ∨ endsJs p.toStr = true ∨ endsMjs p.toStr = true) :=
  modulePathCheck_eq_ok.1 p.2

theorem names_segments (p : ModulePath) : ∀ seg ∈ segments p.toStr, IsName seg := (modulePath_spec p).2.2.2.1

theorem names_directory (base : ModulePath) : ∀ seg ∈ directory base, IsName seg :=
  fun seg hseg => names_segments base seg (List.dropLast_subset _ hseg)

/-- The import starts with `./` or `../`. -/
def IsRelative (import_ : Str) : Prop := str "./" <+: import_ ∨ str "../" <+: import_

theorem not_isCap_of_isRelative {import_ : Str} (h : IsRelative import_) : isCap import_ = false := by
  obtain ⟨rest, rfl⟩ | ⟨rest, rfl⟩ := h <;> simp [isCap, str]

theorem isRel_of_isRelative {import_ : Str} (h : IsRelative import_) :
    (isRel import_ || isRelParent import_) = true := by
  obtain ⟨rest, rfl⟩ | ⟨rest, rfl⟩ := h
  · simp [isRel, str]
  · simp [isRelParent, str]

/-- **What `normalize` does with a relative import.** -/
theorem normalize_cases (base : ModulePath) {import_ : Str} (h : IsRelative import_) :
    (Climbs (directory base).length (segments import_) ∧ normalize base import_ = .error escapes) ∨
    (remaining (directory base ++ segments import_) = [] ∧ ¬ Climbs (directory base).length (segments import_) ∧
      normalize base import_ = .error ⟨str "import", str "empty normalized path"⟩) ∨
    (¬ Climbs (directory base).length (segments import_) ∧
      normalize base import_ =
        ModulePath.ofString (addJs ([chr '/'].intercalate (remaining (directory base ++ segments import_))))) := by
  have hdir : (match (splitOnChar (chr '/') base.toStr).reverse with
      | _ :: rest => rest.reverse
      | [] => []) = directory base := by
    unfold directory segments
    generalize splitOnChar (chr '/') base.toStr = segs
    induction segs using List.reverseRecOn with
    | nil => rfl
    | append_singleton segs seg => simp
  have hwalk := walk_eq (directory base).reverse
    (fun seg hseg => names_directory base seg (List.mem_reverse.1 hseg)) (segments import_)
  rw [List.length_reverse, List.reverse_reverse] at hwalk
  unfold normalize
  simp only [not_isCap_of_isRelative h, isRel_of_isRelative h, Bool.not_true, Bool.false_eq_true, if_false]
  rw [hdir, show splitOnChar (chr '/') import_ = segments import_ from rfl]
  obtain ⟨hclimbs, hwalk⟩ | ⟨hstays, hwalk⟩ := hwalk
  · rw [hwalk]
    exact Or.inl ⟨hclimbs, rfl⟩
  · rw [hwalk]
    generalize remaining (directory base ++ segments import_) = segs
    cases segs with
    | nil => exact Or.inr (Or.inl ⟨rfl, hstays, rfl⟩)
    | cons seg segs => exact Or.inr (Or.inr ⟨hstays, rfl⟩)

/-- An import that stays inside and leaves the segments of `path`. -/
theorem normalize_of_remaining {base : ModulePath} {import_ path : Str} (h : IsRelative import_)
    (hstays : ¬ Climbs (directory base).length (segments import_))
    (hremain : remaining (directory base ++ segments import_) = segments path) :
    normalize base import_ = ModulePath.ofString (addJs path) := by
  obtain ⟨hclimbs, -⟩ | ⟨hnil, -⟩ | ⟨-, heq⟩ := normalize_cases base h
  · exact absurd hclimbs hstays
  · rw [hremain] at hnil
    exact absurd hnil (splitOnChar_ne_nil _ _)
  · rw [heq, hremain, segments, intercalate_splitOnChar]

theorem segments_dot (path : Str) : segments (str "./" ++ path) = str "." :: segments path :=
  splitOnChar_append (chr '/') (str ".") path

/-- A path that stands, imported from a module at the root. -/
theorem normalize_root {base p : ModulePath} (hbase : chr '/' ∉ base.toStr) (hjs : endsJs p.toStr = true) :
    normalize base (str "./" ++ p.toStr) = .ok p := by
  have hdir : directory base = [] := by
    rw [directory, segments, splitOnChar_eq_singleton hbase]
    rfl
  have hnone : ∀ seg ∈ directory base, IsName seg := names_directory base
  have hstays : ¬ Climbs (directory base).length (segments (str "./" ++ p.toStr)) := by
    rw [segments_dot, Climbs, Paths.climbs_dot (by decide)]
    exact Paths.not_climbs_names (names_segments p) _
  have hremain : remaining (directory base ++ segments (str "./" ++ p.toStr)) = segments p.toStr := by
    rw [segments_dot, remaining, Paths.remaining_dot (by decide) hnone, hdir, List.nil_append]
    exact Paths.remaining_names (names_segments p)
  rw [normalize_of_remaining (Or.inl ⟨_, rfl⟩) hstays hremain, addJs_of_endsJs hjs]
  exact Checked.ofString_toStr p

/-- With the extension added a path is accepted or refused, and the error is not that of the walk. -/
theorem ofString_addJs (path : Str) : (ModulePath.ofString (addJs path)).Returns ∧
    (∀ e, ModulePath.ofString (addJs path) = .error e → e ≠ escapes) := by
  obtain hok | ⟨e, herr, hfield⟩ := modulePathCheck_of_endsJs (endsJs_addJs path)
  · have hp : ModulePath.ofString (addJs path) = .ok ⟨addJs path, hok⟩ := Checked.ofString_eq_ok.2 rfl
    rw [hp]
    exact ⟨Outcome.returns_ok _, fun e h => nomatch h⟩
  · have hp : ModulePath.ofString (addJs path) = .error e := Checked.ofString_of_error herr
    rw [hp]
    refine ⟨Outcome.returns_error e, fun e' he => ?_⟩
    cases he
    rintro rfl
    exact absurd hfield (by decide)

/-- **Import normalization is confined and exact.** -/
theorem normalize_confined (base : ModulePath) (import_ : Str) (h : IsRelative import_) :
    (normalize base import_).Returns ∧
    (normalize base import_ = .error escapes ↔ Climbs (directory base).length (segments import_)) ∧
    ∀ p, normalize base import_ = .ok p →
      ModulePath.ofString p.toStr = .ok p ∧ byteAt p.toStr 0 ≠ chr '/' ∧ (∀ seg ∈ segments p.toStr, IsName seg) ∧
        p.toStr = addJs ([chr '/'].intercalate (remaining (directory base ++ segments import_))) ∧
        ∀ root : ModulePath, chr '/' ∉ root.toStr → normalize root (str "./" ++ p.toStr) = .ok p := by
  obtain ⟨hclimbs, heq⟩ | ⟨-, hstays, heq⟩ | ⟨hstays, heq⟩ := normalize_cases base h
  · rw [heq]
    exact ⟨Outcome.returns_error _, iff_of_true rfl hclimbs, fun p hp => nomatch hp⟩
  · rw [heq]
    refine ⟨Outcome.returns_error _, iff_of_false ?_ hstays, fun p hp => nomatch hp⟩
    intro hsame
    injection hsame with hsame
    exact absurd hsame (by decide)
  · rw [heq]
    obtain ⟨hreturns, hother⟩ :=
      ofString_addJs ([chr '/'].intercalate (remaining (directory base ++ segments import_)))
    refine ⟨hreturns, iff_of_false (fun hesc => hother _ hesc rfl) hstays, fun p hp => ?_⟩
    have hval := Checked.ofString_eq_ok.1 hp
    have hjs : endsJs p.toStr = true := by
      rw [hval]
      exact endsJs_addJs _
    exact ⟨Checked.ofString_toStr p, (modulePath_spec p).2.1, names_segments p, hval,
      fun root hroot => normalize_root hroot hjs⟩

/-- From the root, `./lib/../a` is the module `a.js`, and so is `./a.js`. -/
theorem normalize_confined_sample : ∃ p : ModulePath, p.toStr = str "a.js" ∧
    normalize p (str "./lib/../a") = .ok p ∧ normalize p (str "./" ++ p.toStr) = .ok p := by
  have hp : normalize ⟨str "a.js", by decide⟩ (str "./lib/../a") = .ok ⟨str "a.js", by decide⟩ := by decide +kernel
  obtain ⟨-, -, hall⟩ := normalize_confined ⟨str "a.js", by decide⟩ (str "./lib/../a") (Or.inl ⟨str "lib/../a", rfl⟩)
  obtain ⟨-, -, -, -, hroot⟩ := hall _ hp
  exact ⟨_, rfl, hp, hroot _ (by decide)⟩

/-! ## Resolving -/

/-- The import of `target` from `base` by way of the root: `./`, as many `../` as `base` has slashes, the path. -/
def importFromRoot (base target : ModulePath) : Str :=
  str "./" ++ (List.replicate (base.toStr.count (chr '/')) (str "../")).flatten ++ target.toStr

theorem segments_importFromRoot (base target : ModulePath) : segments (importFromRoot base target) =
    str "." :: (List.replicate (directory base).length (str "..") ++ segments target.toStr) := by
  have hcount : base.toStr.count (chr '/') = (directory base).length := by
    rw [directory, segments, List.length_dropLast, length_splitOnChar, Nat.add_sub_cancel]
  have hups : ∀ n, segments ((List.replicate n (str "../")).flatten ++ target.toStr) =
      List.replicate n (str "..") ++ segments target.toStr := by
    intro n
    induction n with
    | zero => rfl
    | succ n ih =>
      rw [List.replicate_succ, List.flatten_cons, List.append_assoc, List.replicate_succ, List.cons_append, ← ih]
      exact splitOnChar_append (chr '/') (str "..") _
  rw [importFromRoot, List.append_assoc, segments_dot, hcount, hups]

theorem isRelative_importFromRoot (base target : ModulePath) : IsRelative (importFromRoot base target) :=
  Or.inl ⟨_, (List.append_assoc ..).symm⟩

/-- It stays inside, and what is left of it is the path. -/
theorem remaining_importFromRoot (base target : ModulePath) :
    ¬ Climbs (directory base).length (segments (importFromRoot base target)) ∧
      remaining (directory base ++ segments (importFromRoot base target)) = segments target.toStr := by
  have hdir := names_directory base
  constructor
  · rw [segments_importFromRoot, Climbs, Paths.climbs_dot (by decide)]
    refine mt (Paths.climbs_back (directory base).length 0 _).1 ?_
    exact Paths.not_climbs_names (names_segments target) 0
  · rw [segments_importFromRoot, remaining, Paths.remaining_dot (by decide) hdir, Paths.remaining_back hdir]
    exact Paths.remaining_names (names_segments target)

theorem normalize_importFromRoot (base target : ModulePath) :
    normalize base (importFromRoot base target) = ModulePath.ofString (addJs target.toStr) :=
  normalize_of_remaining (isRelative_importFromRoot base target) (remaining_importFromRoot base target).1
    (remaining_importFromRoot base target).2

/-- A path with one more extension is a path. -/
theorem exists_append_js (p : ModulePath) : ∃ q : ModulePath, q.toStr = p.toStr ++ str ".js" := by
  obtain ⟨hlen, habs, hchars, hsegs, -⟩ := modulePath_spec p
  refine ⟨⟨p.toStr ++ str ".js", modulePathCheck_eq_ok.2 ⟨?_, ?_, ?_, ?_, Or.inr (Or.inl ?_)⟩⟩, rfl⟩
  · simp [str]
  · rw [byteAt, List.getD_append _ _ _ _ (Nat.pos_of_ne_zero hlen)]
    exact habs
  · intro c hc
    obtain hc | hc := List.mem_append.1 hc
    · exact hchars c hc
    · exact List.all_eq_true.1 (show (str ".js").all isPathChar = true by decide) c hc
  · intro seg hseg
    obtain ⟨segs, last, hsplit, hsplit'⟩ := splitOnChar_append_last (show chr '/' ∉ str ".js" by decide) p.toStr
    rw [segments, hsplit'] at hseg
    obtain hseg | hseg := List.mem_append.1 hseg
    · refine hsegs seg ?_
      rw [segments]
      exact hsplit ▸ List.mem_append_left _ hseg
    · obtain rfl := List.mem_singleton.1 hseg
      constructor <;> intro h <;> simpa [str] using congrArg List.length h
  · simp [endsJs, str]

theorem find_of_mem {modules : List (ModulePath × Str)} (hdistinct : (modules.map Prod.fst).Nodup) {p : ModulePath}
    {content : Str} (h : (p, content) ∈ modules) :
    modules.find? (fun m => m.1.toStr == p.toStr) = some (p, content) := by
  induction modules with
  | nil => exact absurd h List.not_mem_nil
  | cons m modules ih =>
    obtain ⟨hfresh, hrest⟩ := List.nodup_cons.1 hdistinct
    obtain rfl | h := List.mem_cons.1 h
    · simp
    · have hne : (m.1.toStr == p.toStr) = false := by
        refine beq_eq_false_iff_ne.2 fun heq => hfresh ?_
        rw [show m.1 = p from Checked.ext heq]
        exact List.mem_map_of_mem h
      rw [List.find?_cons, hne]
      exact ih hrest h

/-- **A module can be imported by its path from every other exactly when the extension rule leaves its path alone**, or
when the bundle has the same content under the longer path. -/
theorem resolve_importFromRoot_iff (modules : List (ModulePath × Str)) (hdistinct : (modules.map Prod.fst).Nodup)
    (base target : ModulePath) (content : Str) (htarget : (target, content) ∈ modules) :
    resolve modules base (importFromRoot base target) = .ok content ↔
      endsJs target.toStr = true ∨ ∃ p : ModulePath, p.toStr = target.toStr ++ str ".js" ∧ (p, content) ∈ modules := by
  unfold resolve
  rw [normalize_importFromRoot]
  by_cases hjs : endsJs target.toStr = true
  · rw [addJs_of_endsJs hjs, show ModulePath.ofString target.toStr = .ok target from Checked.ofString_toStr target,
      Outcome.ok_bind, find_of_mem hdistinct htarget]
    exact iff_of_true rfl (Or.inl hjs)
  · obtain ⟨p, hval⟩ := exists_append_js target
    have hlonger : ModulePath.ofString (addJs target.toStr) = .ok p := by
      rw [addJs, if_neg hjs]
      exact Checked.ofString_eq_ok.2 hval
    rw [hlonger, Outcome.ok_bind]
    constructor
    · intro hfound
      refine Or.inr ⟨p, hval, ?_⟩
      cases hfind : modules.find? fun m => m.1.toStr == p.toStr with
      | none =>
        rw [hfind] at hfound
        cases hfound
      | some m =>
        rw [hfind] at hfound
        cases hfound
        have heq : m.1 = p := Checked.ext (beq_iff_eq.1 (List.find?_some hfind :))
        rw [← heq]
        exact List.mem_of_find?_eq_some hfind
    · rintro (h | ⟨p', hp', hmem⟩)
      · exact absurd h hjs
      · obtain rfl : p' = p := Checked.ext (hp'.trans hval.symm)
        rw [find_of_mem hdistinct hmem]

/-- A module with the other extension that `Module_path` allows. -/
def mjsPath : ModulePath := ⟨str "a.mjs", by decide⟩

theorem modulePathCheck_main : modulePathCheck (str "main.js") = .ok () := by decide

def mainPath : ModulePath := ⟨str "main.js", modulePathCheck_main⟩

def twoModules : List (ModulePath × Str) := [(mainPath, str "import './a.mjs'"), (mjsPath, str "0")]

/-- `a.mjs` is in the bundle and cannot be imported: the loader looks for `a.mjs.js`. -/
theorem mjs_not_resolved : (twoModules.map Prod.fst).Nodup ∧ (mjsPath, str "0") ∈ twoModules ∧
    isCap mjsPath.toStr = false ∧ importFromRoot mainPath mjsPath = str "./a.mjs" ∧
    resolve twoModules mainPath (importFromRoot mainPath mjsPath) =
      .error ⟨str "import", str "module \"a.mjs.js\" not in bundle"⟩ := by
  refine ⟨by decide, by decide, by decide, by decide, ?_⟩
  decide +kernel

theorem resolve_importFromRoot_main :
    resolve twoModules mjsPath (importFromRoot mjsPath mainPath) = .ok (str "import './a.mjs'") :=
  (resolve_importFromRoot_iff twoModules (by decide) mjsPath mainPath _ (by decide)).2 (Or.inl (by decide))

end MirageLambda.ModuleLoader
