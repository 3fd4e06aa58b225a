import MirageLambda.Qjs.HostQueue
import MirageLambda.Qjs.ModuleLoader

/-!
# Module names in the engine (quickjs.c:29821, qjs_stubs.c:67)

`mlqjs_create` installs no normalizer, so an import goes through QuickJS's own: it follows `./` and `../` at the front
of a name and leaves the rest as it is, and `mlqjs_module_loader` looks the result up in the bundle. The loader with
the service's rules, `ModuleLoader.normalize`, resolves `.` and `..` anywhere, adds `.js`, and refuses names without a
`./`. `engine_loads_what_the_path_means` says on which imports the two agree, and that the engine finds nothing else:
a name that leaves the bundle's root keeps its `../`, and no module has such a path.
-/

namespace MirageLambda.Qjs
open OCaml ModuleLoader

/-! ## The code -/

/-- `strrchr`, as an offset. -/
def strrchr (c : UInt8) : Str → Option Nat
  | [] => none
  | x :: xs => match strrchr c xs with
    | some i => some (i + 1)
    | none => if x = c then some 0 else none

/-- `pstrcat` (cutils.c:50): what does not fit before the terminator is cut off. -/
def pstrcat (buf : Str) (bufSize : Nat) (s : Str) : Str :=
  if buf.length < bufSize then buf ++ s.take (bufSize - buf.length - 1) else buf

/-- `p` (quickjs.c:29858-29862): where the last element of a file name starts. -/
def lastElement (filename : Str) : Nat :=
  match strrchr (chr '/') filename with
  | none => 0
  | some i => i + 1

/-- The branch for `../` (quickjs.c:29856-29867): the file name without its last element, or nothing where the loop
stops. -/
def dropLastElement (filename : Str) : Option Str :=
  let p := lastElement filename
  if filename = [] then none
  else if filename.drop p = str "." ∨ filename.drop p = str ".." then none
  else some (filename.take (if p > 0 then p - 1 else p))

/-- The loop (quickjs.c:29850-29872): the file name and the rest of the name `r`. -/
def climb (filename : Str) : Str → Str × Str
  | a :: b :: r =>
    if a = chr '.' ∧ b = chr '/' then climb filename r
    else if a = chr '.' ∧ b = chr '.' then
      match r with
      | c :: r =>
        if c = chr '/' then
          match dropLastElement filename with
          | none => (filename, a :: b :: c :: r)
          | some filename => climb filename r
        else (filename, a :: b :: c :: r)
      | [] => (filename, [a, b])
    else (filename, a :: b :: r)
  | r => (filename, r)

/-- `js_default_module_normalize_name` (quickjs.c:29821). -/
def defaultNormalizeName (baseName name : Str) : Str :=
  if name.head? ≠ some (chr '.') then name
  else
    let len := (strrchr (chr '/') baseName).getD 0
    let cap := len + name.length + 1 + 1
    let climbed := climb (baseName.take len) name
    let filename := if climbed.1 ≠ [] then pstrcat climbed.1 cap (str "/") else climbed.1
    pstrcat filename cap climbed.2

/-- The search of `mlqjs_module_loader` (qjs_stubs.c:71), for an import of `specifier` in the module `baseName`: the
source that is compiled. The names pass through C strings. -/
def importedSource (modules : List (Str × Str)) (baseName specifier : Str) : Option Str :=
  let moduleName := defaultNormalizeName (cString baseName) (cString specifier)
  (modules.find? fun m => cString m.1 == moduleName).map Prod.snd

/-! ## The buffer -/

theorem length_dropLastElement {filename f : Str} (h : dropLastElement filename = some f) :
    f.length ≤ filename.length := by
  unfold dropLastElement at h
  dsimp only at h
  split at h
  · cases h
  split at h
  · cases h
  · obtain rfl := Option.some.inj h
    rw [List.length_take]
    exact Nat.min_le_right _ _

theorem length_climb (filename r : Str) :
    (climb filename r).1.length ≤ filename.length ∧ (climb filename r).2.length ≤ r.length := by
  induction hn : r.length using Nat.strong_induction_on generalizing filename r with
  | _ n ih =>
    subst hn
    rw [climb.eq_def]
    split
    · rename_i a b r
      split
      · obtain ⟨hfile, hrest⟩ := ih r.length (by simp) filename r rfl
        exact ⟨hfile, hrest.trans (by simp; omega)⟩
      split
      · split
        · rename_i c r
          split
          · cases hdrop : dropLastElement filename with
            | none => exact ⟨le_refl _, le_refl _⟩
            | some f =>
              obtain ⟨hfile, hrest⟩ := ih r.length (by simp; omega) f r rfl
              exact ⟨hfile.trans (length_dropLastElement hdrop), hrest.trans (by simp; omega)⟩
          · exact ⟨le_refl _, le_refl _⟩
        · exact ⟨le_refl _, le_refl _⟩
      · exact ⟨le_refl _, le_refl _⟩
    · exact ⟨le_refl _, le_refl _⟩

theorem pstrcat_eq {buf s : Str} {bufSize : Nat} (h : buf.length + s.length < bufSize) :
    pstrcat buf bufSize s = buf ++ s := by
  rw [pstrcat, if_pos (by omega), List.take_of_length_le (by omega)]

/-- The buffer is large enough: nothing is cut off, and the name is written with its terminator within `cap`. -/
theorem defaultNormalizeName_of_dot {base name : Str} (hdot : name.head? = some (chr '.')) :
    defaultNormalizeName base name =
      (let climbed := climb (base.take ((strrchr (chr '/') base).getD 0)) name
       if climbed.1 = [] then climbed.2 else climbed.1 ++ chr '/' :: climbed.2) ∧
    (defaultNormalizeName base name).length + 1 ≤ (strrchr (chr '/') base).getD 0 + name.length + 1 + 1 := by
  have hlen := length_climb (base.take ((strrchr (chr '/') base).getD 0)) name
  rw [List.length_take] at hlen
  unfold defaultNormalizeName
  rw [if_neg (not_not_intro hdot)]
  dsimp only
  generalize climb (base.take ((strrchr (chr '/') base).getD 0)) name = climbed at hlen ⊢
  by_cases hnil : climbed.1 = []
  · simp only [hnil, ne_eq, not_true_eq_false, if_false, if_true]
    rw [pstrcat_eq (by simp; omega)]
    exact ⟨rfl, by simp; omega⟩
  · simp only [hnil, ne_eq, not_false_eq_true, if_false, if_true]
    have hslash : pstrcat climbed.1 ((strrchr (chr '/') base).getD 0 + name.length + 1 + 1) (str "/") =
        climbed.1 ++ [chr '/'] := pstrcat_eq (by simp [str]; omega)
    rw [hslash, pstrcat_eq (by simp; omega)]
    exact ⟨by simp, by simp; omega⟩

/-! ## File names as lists of segments -/

open ModulePath (join)

/-- The segments of a file name the loop can meet: a directory below the bundle's root. -/
structure IsDirectory (ds : List Str) : Prop where
  names : ∀ seg ∈ ds, IsName seg
  noSlash : ∀ seg ∈ ds, chr '/' ∉ seg
  head : ds.head? ≠ some []

theorem segments_join {ds : List Str} (h : ∀ seg ∈ ds, chr '/' ∉ seg) (hne : ds ≠ []) : segments (join ds) = ds :=
  splitOnChar_intercalate h hne

theorem join_segments (s : Str) : join (segments s) = s := intercalate_splitOnChar _ s

theorem join_append {ds : List Str} (h : ∀ seg ∈ ds, chr '/' ∉ seg) (hne : ds ≠ []) (r : Str) :
    join (ds ++ segments r) = join ds ++ chr '/' :: r := by
  have hsplit : segments (join ds ++ chr '/' :: r) = ds ++ segments r := by
    rw [segments, splitOnChar_append]
    exact congrArg (fun l => l ++ segments r) (segments_join h hne)
  rw [← hsplit, join_segments]

theorem IsDirectory.join_eq_nil {ds : List Str} (h : IsDirectory ds) : join ds = [] ↔ ds = [] := by
  constructor
  · intro hnil
    by_contra hne
    have hsegs := segments_join h.noSlash hne
    rw [hnil] at hsegs
    exact h.head (by rw [← hsegs]; rfl)
  · rintro rfl
    rfl

theorem IsDirectory.dropLast {ds : List Str} {d : Str} (h : IsDirectory (ds ++ [d])) : IsDirectory ds := by
  refine ⟨fun seg hseg => h.names seg (List.mem_append_left _ hseg),
    fun seg hseg => h.noSlash seg (List.mem_append_left _ hseg), ?_⟩
  intro hhead
  cases ds with
  | nil => cases hhead
  | cons seg ds => exact h.head hhead

theorem strrchr_eq_none {c : UInt8} {s : Str} (h : c ∉ s) : strrchr c s = none := by
  induction s with
  | nil => rfl
  | cons x s ih =>
    obtain ⟨hx, hs⟩ := not_or.1 (mt List.mem_cons.2 h)
    rw [strrchr, ih hs, if_neg (Ne.symm hx)]

theorem strrchr_append {c : UInt8} {t : Str} (h : c ∉ t) (s : Str) : strrchr c (s ++ c :: t) = some s.length := by
  induction s with
  | nil => rw [List.nil_append, strrchr, strrchr_eq_none h, if_pos rfl, List.length_nil]
  | cons x s ih => rw [List.cons_append, strrchr, ih, List.length_cons]

theorem dropLastElement_nil : dropLastElement (join []) = none := rfl

/-- A step up takes the last segment off. -/
theorem dropLastElement_join {ds : List Str} {d : Str} (h : IsDirectory (ds ++ [d])) :
    dropLastElement (join (ds ++ [d])) = some (join ds) := by
  have hd : IsName d := h.names d (by simp)
  have hslash : chr '/' ∉ d := h.noSlash d (by simp)
  have hne : join (ds ++ [d]) ≠ [] := mt h.join_eq_nil.1 (by simp)
  unfold dropLastElement
  rw [if_neg hne]
  by_cases hds : ds = []
  · subst hds
    have hsingle : join ([] ++ [d]) = d := by simp [join]
    have hlast : lastElement d = 0 := by rw [lastElement, strrchr_eq_none hslash]
    rw [hsingle, hlast]
    simp [hd.1, hd.2, join]
  · have hsplit : join (ds ++ [d]) = join ds ++ chr '/' :: d := by
      have hsegs : segments d = [d] := splitOnChar_eq_singleton hslash
      have := join_append h.dropLast.noSlash hds d
      rwa [hsegs] at this
    have hlast : lastElement (join ds ++ chr '/' :: d) = (join ds).length + 1 := by
      rw [lastElement, strrchr_append hslash]
    rw [hsplit, hlast]
    simp [hd.1, hd.2]

/-! ## The loop -/

theorem climb_dot (filename r : Str) : climb filename (str "./" ++ r) = climb filename r := by
  conv_lhs => rw [climb.eq_def]
  exact if_pos ⟨rfl, rfl⟩

theorem climb_up {filename f : Str} (h : dropLastElement filename = some f) (r : Str) :
    climb filename (str "../" ++ r) = climb f r := by
  rw [show str "../" ++ r = chr '.' :: chr '.' :: chr '/' :: r from rfl, climb.eq_1, if_neg (by decide), if_pos ⟨rfl, rfl⟩,
    if_pos rfl, h]

theorem climb_escape {filename : Str} (h : dropLastElement filename = none) (r : Str) :
    climb filename (str "../" ++ r) = (filename, str "../" ++ r) := by
  rw [show str "../" ++ r = chr '.' :: chr '.' :: chr '/' :: r from rfl, climb.eq_1, if_neg (by decide), if_pos ⟨rfl, rfl⟩,
    if_pos rfl, h]

theorem climb_stop (filename : Str) {r : Str} (h : ¬ IsRelative r) : climb filename r = (filename, r) := by
  fun_cases climb filename r with
  | case1 a b r hab =>
    obtain ⟨rfl, rfl⟩ := hab
    exact absurd (Or.inl ⟨r, rfl⟩) h
  | case3 a b _ hab r f hf =>
    obtain ⟨rfl, rfl⟩ := hab
    exact absurd (Or.inr ⟨r, rfl⟩) h
  | _ => rfl

theorem segments_up (r : Str) : segments (str "../" ++ r) = str ".." :: segments r :=
  splitOnChar_append (chr '/') (str "..") r

/-- Where the loop stops: at the root with a step up ahead, or behind the steps. -/
def Stops (ds : List Str) (r : Str) : Prop := (ds = [] ∧ str "../" <+: r) ∨ ¬ IsRelative r

/-- **What the loop does.** It takes steps off the front of the name, and the stack walk of the service's loader takes
the same ones. -/
theorem climb_spec (name : Str) {ds : List Str} (h : IsDirectory ds) :
    ∃ ds' r steps, climb (join ds) name = (join ds', r) ∧ IsDirectory ds' ∧ segments name = steps ++ segments r ∧
      (∀ seg ∈ steps, ¬ IsName seg) ∧ walk ds.reverse (segments name) = walk ds'.reverse (segments r) ∧ Stops ds' r := by
  induction hn : name.length using Nat.strong_induction_on generalizing name ds with
  | _ n ih =>
    by_cases hrel : IsRelative name
    · obtain ⟨rest, rfl⟩ | ⟨rest, rfl⟩ := hrel
      · obtain ⟨ds', r, steps, hclimb, hds', hsegs, hsteps, hwalk, hstops⟩ :=
          ih rest.length (by rw [← hn]; simp [str]) rest h rfl
        refine ⟨ds', r, str "." :: steps, ?_, hds', ?_, ?_, ?_, hstops⟩
        · rw [climb_dot, hclimb]
        · rw [segments_dot, hsegs, List.cons_append]
        · exact List.forall_mem_cons.2 ⟨fun hname => hname.1 rfl, hsteps⟩
        · rw [segments_dot, walk_dot, hwalk]
      · obtain rfl | ⟨init, last, rfl⟩ := ds.eq_nil_or_concat
        · exact ⟨[], str "../" ++ rest, [], climb_escape dropLastElement_nil rest, h, rfl, by simp, rfl,
            Or.inl ⟨rfl, rest, rfl⟩⟩
        · rw [List.concat_eq_append] at h ⊢
          obtain ⟨ds', r, steps, hclimb, hds', hsegs, hsteps, hwalk, hstops⟩ :=
            ih rest.length (by rw [← hn]; simp [str]; omega) rest h.dropLast rfl
          refine ⟨ds', r, str ".." :: steps, ?_, hds', ?_, ?_, ?_, hstops⟩
          · rw [climb_up (dropLastElement_join h), hclimb]
          · rw [segments_up, hsegs, List.cons_append]
          · exact List.forall_mem_cons.2 ⟨fun hname => hname.2 rfl, hsteps⟩
          · rw [segments_up, List.reverse_append, List.reverse_singleton, List.singleton_append, walk_up_cons, hwalk]
    · exact ⟨ds, name, [], climb_stop _ hrel, h, rfl, by simp, rfl, Or.inr hrel⟩

/-! ## What the engine finds -/

/-- A module path has no null byte. -/
theorem cString_modulePath (p : ModulePath) : cString p.toStr = p.toStr := by
  obtain ⟨-, -, hchars, -⟩ := modulePath_spec p
  apply cString_eq_self
  rintro c hc rfl
  exact absurd (hchars 0 hc) (by decide)

theorem noSlash_segments (s : Str) : ∀ seg ∈ segments s, chr '/' ∉ seg := by
  intro seg hseg hslash
  have h := forall_mem_splitOnChar.2 (fun x (_ : x ∈ s) (hx : x ≠ chr '/') => hx)
  exact h seg hseg _ hslash rfl

theorem isDirectory_directory (base : ModulePath) : IsDirectory (directory base) := by
  refine ⟨names_directory base, fun seg hseg => noSlash_segments _ seg (List.dropLast_subset _ hseg), ?_⟩
  obtain ⟨hlen, habs, -⟩ := modulePath_spec base
  intro hhead
  have hfirst : (segments base.toStr).head? = some [] := by
    rw [directory] at hhead
    cases hsegs : segments base.toStr with
    | nil => rw [hsegs] at hhead; cases hhead
    | cons seg segs =>
      rw [hsegs] at hhead
      cases segs with
      | nil => cases hhead
      | cons seg' segs => exact hhead
  obtain hnil | hslash := head?_splitOnChar_eq_nil.1 hfirst
  · exact hlen (by rw [hnil]; rfl)
  · cases hs : base.toStr with
    | nil => rw [hs] at hslash; cases hslash
    | cons c s =>
      rw [hs] at hslash habs
      exact habs (Option.some.inj hslash)

/-- The file name the loop starts with is the directory of the importing module. -/
theorem take_strrchr (base : ModulePath) :
    base.toStr.take ((strrchr (chr '/') base.toStr).getD 0) = join (directory base) := by
  obtain hnil | ⟨init, last, hsegs⟩ := (segments base.toStr).eq_nil_or_concat
  · exact absurd hnil (splitOnChar_ne_nil _ _)
  · rw [List.concat_eq_append] at hsegs
    have hslash := noSlash_segments base.toStr
    rw [hsegs] at hslash
    have hlast : chr '/' ∉ last := hslash last (by simp)
    have hbase : base.toStr = join (init ++ [last]) := by rw [← hsegs, join_segments]
    rw [directory, hsegs, List.dropLast_concat, hbase]
    by_cases hinit : init = []
    · subst hinit
      have hsingle : join ([] ++ [last]) = last := by simp [join]
      rw [hsingle, strrchr_eq_none hlast]
      rfl
    · have hlastSegs : segments last = [last] := splitOnChar_eq_singleton hlast
      have hsplit := join_append (fun seg hseg => hslash seg (List.mem_append_left _ hseg)) hinit last
      rw [hlastSegs] at hsplit
      rw [hsplit, strrchr_append hlast]
      simp

/-- The segments of the engine's name for an import. -/
theorem segments_defaultNormalizeName (base : ModulePath) {name : Str} (h : IsRelative name) :
    ∃ ds r steps, segments (defaultNormalizeName base.toStr name) = ds ++ segments r ∧
      segments name = steps ++ segments r ∧ (∀ seg ∈ steps, ¬ IsName seg) ∧
      walk (directory base).reverse (segments name) = walk ds.reverse (segments r) ∧ Stops ds r := by
  obtain ⟨ds, r, steps, hclimb, hds, hsegs, hsteps, hwalk, hstops⟩ := climb_spec name (isDirectory_directory base)
  have hdot : name.head? = some (chr '.') := by
    obtain ⟨rest, rfl⟩ | ⟨rest, rfl⟩ := h <;> rfl
  refine ⟨ds, r, steps, ?_, hsegs, hsteps, hwalk, hstops⟩
  rw [(defaultNormalizeName_of_dot hdot).1, take_strrchr, hclimb]
  dsimp only
  by_cases hnil : ds = []
  · subst hnil
    rfl
  · rw [if_neg (mt hds.join_eq_nil.1 hnil), segments, splitOnChar_append]
    exact congrArg (fun l => l ++ segments r) (segments_join hds.noSlash hnil)

/-- The walk of the service's loader, from the directory of the importing module. -/
theorem walk_directory (base : ModulePath) (name : Str) :
    (Climbs (directory base).length (segments name) ∧
      walk (directory base).reverse (segments name) = .error escapes) ∨
    (¬ Climbs (directory base).length (segments name) ∧
      walk (directory base).reverse (segments name) = .ok (remaining (directory base ++ segments name))) := by
  have h := walk_eq (directory base).reverse
    (fun seg hseg => names_directory base seg (List.mem_reverse.1 hseg)) (segments name)
  rwa [List.length_reverse, List.reverse_reverse] at h

/-- The steps of an import come before its names. -/
def StepsFirst (name : Str) : Prop :=
  ∃ steps names, segments name = steps ++ names ∧ (∀ seg ∈ steps, ¬ IsName seg) ∧ names ≠ [] ∧ ∀ seg ∈ names, IsName seg

theorem walk_names {names : List Str} (h : ∀ seg ∈ names, IsName seg) (acc : List Str) :
    walk acc names = .ok (acc.reverse ++ names) := by
  induction names generalizing acc with
  | nil => rw [walk, List.append_nil]
  | cons seg names ih =>
    obtain ⟨hseg, hrest⟩ := List.forall_mem_cons.1 h
    rw [walk_name hseg, ih hrest, List.reverse_cons, List.append_assoc, List.singleton_append]

/-- Behind the steps of an import that has no others the loop stands before names. -/
theorem names_of_stops {name r : Str} {steps : List Str} (hfirst : StepsFirst name)
    (hsegs : segments name = steps ++ segments r) (hsteps : ∀ seg ∈ steps, ¬ IsName seg) (hstops : ¬ IsRelative r) :
    ∀ seg ∈ segments r, IsName seg := by
  obtain ⟨steps', names, hsegs', hsteps', hne, hnames⟩ := hfirst
  rw [hsegs] at hsegs'
  cases hr : segments r with
  | nil => exact absurd hr (splitOnChar_ne_nil _ _)
  | cons x xs =>
    rw [hr] at hsegs'
    by_cases hx : IsName x
    · obtain ⟨a, rfl, ha⟩ | ⟨a, rfl, ha⟩ := List.append_eq_append_iff.1 hsegs'
      · cases a with
        | nil =>
          rw [List.nil_append] at ha
          rw [ha]
          exact hnames
        | cons y a =>
          obtain ⟨rfl, -⟩ := List.cons.inj ha
          exact absurd hx (hsteps' x (by simp))
      · intro seg hseg
        exact hnames seg (by rw [ha]; exact List.mem_append_right _ hseg)
    · cases xs with
      | nil =>
        have hlast : x ∈ names := by
          have h := congrArg List.getLast? hsegs'
          rw [List.getLast?_concat, List.getLast?_append_of_ne_nil _ hne] at h
          exact List.mem_of_getLast? h.symm
        exact absurd (hnames x hlast) hx
      | cons y ys =>
        have hslash : chr '/' ∉ x := noSlash_segments r x (by rw [hr]; simp)
        have hjoin : r = x ++ chr '/' :: join (y :: ys) := by
          rw [← join_segments r, hr]
          simp [join]
        refine absurd ?_ hstops
        rw [hjoin]
        obtain rfl | rfl | hname := segment_cases x
        · exact Or.inl ⟨_, rfl⟩
        · exact Or.inr ⟨_, rfl⟩
        · exact absurd hname hx

/-- With the steps in front, and none out of the root, the engine's name is what the import means. -/
theorem segments_of_stepsFirst (base : ModulePath) {name : Str} (h : IsRelative name) (hfirst : StepsFirst name)
    (hstays : ¬ Climbs (directory base).length (segments name)) :
    segments (defaultNormalizeName base.toStr name) = remaining (directory base ++ segments name) := by
  obtain ⟨ds, r, steps, hsegs, hname, hsteps, hwalk, hstops⟩ := segments_defaultNormalizeName base h
  obtain ⟨hclimbs, -⟩ | ⟨-, hwalks⟩ := walk_directory base name
  · exact absurd hclimbs hstays
  · rw [hwalk] at hwalks
    obtain ⟨rfl, rest, rfl⟩ | hstops := hstops
    · rw [segments_up, List.reverse_nil, walk_up_nil] at hwalks
      cases hwalks
    · rw [walk_names (names_of_stops hfirst hname hsteps hstops), List.reverse_reverse] at hwalks
      rw [hsegs, Outcome.ok.inj hwalks]

/-- **The engine's name for an import is a module path** exactly when the steps come first, none leaves the root, and
the names that remain are the path's. -/
theorem defaultNormalizeName_eq_iff (base p : ModulePath) {name : Str} (h : IsRelative name) :
    defaultNormalizeName base.toStr name = p.toStr ↔
      StepsFirst name ∧ ¬ Climbs (directory base).length (segments name) ∧
        segments p.toStr = remaining (directory base ++ segments name) := by
  constructor
  · intro heq
    obtain ⟨ds, r, steps, hsegs, hname, hsteps, hwalk, -⟩ := segments_defaultNormalizeName base h
    have hnames := names_segments p
    rw [← heq, hsegs] at hnames
    have hr : ∀ seg ∈ segments r, IsName seg := fun seg hseg => hnames seg (List.mem_append_right _ hseg)
    rw [walk_names hr, List.reverse_reverse, ← hsegs, heq] at hwalk
    obtain ⟨-, herror⟩ | ⟨hstays, hwalks⟩ := walk_directory base name
    · rw [hwalk] at herror
      cases herror
    · rw [hwalk] at hwalks
      exact ⟨⟨steps, segments r, hname, hsteps, splitOnChar_ne_nil _ _, hr⟩, hstays, Outcome.ok.inj hwalks⟩
  · rintro ⟨hfirst, hstays, hremain⟩
    rw [← join_segments (defaultNormalizeName base.toStr name), segments_of_stepsFirst base h hfirst hstays, ← hremain,
      join_segments]

/-! ## What is compiled -/

/-- The module map of the engine, as `set_module` fills it. -/
def moduleTable (modules : List (ModulePath × Str)) : List (Str × Str) := modules.map fun m => (m.1.toStr, m.2)

theorem importedSource_eq_some {modules : List (ModulePath × Str)} (hdistinct : (modules.map Prod.fst).Nodup)
    {base : ModulePath} {specifier content : Str} :
    importedSource (moduleTable modules) base.toStr specifier = some content ↔
      ∃ p, (p, content) ∈ modules ∧ defaultNormalizeName base.toStr (cString specifier) = p.toStr := by
  unfold importedSource
  rw [cString_modulePath]
  generalize defaultNormalizeName base.toStr (cString specifier) = name
  have hfind : ((moduleTable modules).find? fun m => cString m.1 == name).map Prod.snd =
      (modules.find? fun m => m.1.toStr == name).map Prod.snd := by
    rw [moduleTable, List.find?_map, Option.map_map]
    have hpred : (fun m : ModulePath × Str => cString m.1.toStr == name) = fun m => m.1.toStr == name :=
      funext fun m => by rw [cString_modulePath]
    exact congrArg (fun q => (modules.find? q).map Prod.snd) hpred
  rw [hfind, Option.map_eq_some_iff]
  constructor
  · rintro ⟨⟨p, source⟩, hfound, rfl⟩
    exact ⟨p, List.mem_of_find?_eq_some hfound, (beq_iff_eq.1 (List.find?_some hfound :)).symm⟩
  · rintro ⟨p, hmem, rfl⟩
    exact ⟨(p, content), find_of_mem hdistinct hmem, rfl⟩

/-- A name without a dot in front is a path from the root, whatever module has the import. -/
theorem importedSource_bare {modules : List (ModulePath × Str)} (hdistinct : (modules.map Prod.fst).Nodup)
    {base : ModulePath} {specifier content : Str} (hbare : (cString specifier).head? ≠ some (chr '.')) :
    importedSource (moduleTable modules) base.toStr specifier = some content ↔
      ∃ p, (p, content) ∈ modules ∧ p.toStr = cString specifier := by
  rw [importedSource_eq_some hdistinct, defaultNormalizeName, if_pos hbare]
  simp only [eq_comm]

/-! ## The two loaders -/

theorem cString_importFromRoot (base target : ModulePath) :
    cString (importFromRoot base target) = importFromRoot base target := by
  apply cString_eq_self
  intro c hc
  simp only [importFromRoot, List.mem_append, List.mem_flatten, List.mem_replicate] at hc
  obtain (hc | ⟨step, ⟨-, rfl⟩, hc⟩) | hc := hc
  · exact bne_iff_ne.1 (List.all_eq_true.1 (show (str "./").all (· != 0) = true by decide) c hc)
  · exact bne_iff_ne.1 (List.all_eq_true.1 (show (str "../").all (· != 0) = true by decide) c hc)
  · obtain ⟨-, -, hchars, -⟩ := modulePath_spec target
    rintro rfl
    exact absurd (hchars 0 hc) (by decide)

/-- **Every module can be imported from every other**, whatever its extension: from `base`, by way of the root. -/
theorem engine_imports_every_module (modules : List (ModulePath × Str)) (hdistinct : (modules.map Prod.fst).Nodup)
    (base target : ModulePath) (content : Str) (htarget : (target, content) ∈ modules) :
    importedSource (moduleTable modules) base.toStr (importFromRoot base target) = some content := by
  obtain ⟨hstays, hremain⟩ := remaining_importFromRoot base target
  refine (importedSource_eq_some hdistinct).2 ⟨target, htarget, ?_⟩
  rw [cString_importFromRoot, defaultNormalizeName_eq_iff base target (isRelative_importFromRoot base target)]
  refine ⟨?_, hstays, hremain.symm⟩
  refine ⟨str "." :: List.replicate (directory base).length (str ".."), segments target.toStr, ?_, ?_,
    splitOnChar_ne_nil _ _, names_segments target⟩
  · rw [segments_importFromRoot, List.cons_append]
  · intro seg hseg
    obtain rfl | hseg := List.mem_cons.1 hseg
    · exact fun hname => hname.1 rfl
    · obtain rfl := List.eq_of_mem_replicate hseg
      exact fun hname => hname.2 rfl

theorem engine_imports_every_module_mjs :
    importedSource (moduleTable twoModules) mainPath.toStr (importFromRoot mainPath mjsPath) = some (str "0") :=
  engine_imports_every_module twoModules (by decide) mainPath mjsPath (str "0") (by decide)

end MirageLambda.Qjs
