import Mathlib.Data.List.DropRight
import MirageLambda.Lib.Outcome

/-!
# Files

The part of `Sys`, `Unix`, `Filename` and the channel functions that a program needs to keep whole
files: a file system is what stands at each path. Paths are compared as strings; links, relative
segments and permissions are not modelled, but a path can be `locked`, with the exception that opening
it raises. A write is all or nothing.
-/

namespace OCaml

/-- `Filename.concat` on Unix. -/
def concat (dir file : Str) : Str :=
  if dir = [] ∨ dir.getLast? = some (chr '/') then dir ++ file else dir ++ [chr '/'] ++ file

/-- `Filename.dirname` on Unix: trailing slashes, the last component and the slashes before it go. -/
def dirname (name : Str) : Str :=
  let isSep := fun c => c == chr '/'
  if name = [] then str "."
  else match name.rdropWhile isSep with
    | [] => str "/"
    | base => match base.rdropWhile fun c => !isSep c with
      | [] => str "."
      | dir => match dir.rdropWhile isSep with
        | [] => str "/"
        | dir => dir

/-- `Filename.basename` on Unix: the last component, without the slashes behind it. -/
def basename (name : Str) : Str :=
  let isSep := fun c => c == chr '/'
  if name = [] then str "."
  else match name.rdropWhile isSep with
    | [] => str "/"
    | base => base.rtakeWhile fun c => !isSep c

inductive Node where
  | dir
  | file (bytes : Str)
  | locked (e : Exn)
deriving DecidableEq, Repr

structure FileSystem where
  node : Str → Option Node

namespace FileSystem

variable {ε : Type}

def set (fs : FileSystem) (path : Str) (n : Option Node) : FileSystem := ⟨Function.update fs.node path n⟩

/-- The two paths every process starts from are always there. -/
def isDir (fs : FileSystem) (path : Str) : Bool :=
  path = str "/" || path = str "." || fs.node path = some .dir

/-- `Sys.file_exists`. -/
def fileExists (fs : FileSystem) (path : Str) : Bool := fs.isDir path || (fs.node path).isSome

/-- `Unix.mkdir`; the parent must be a directory. -/
def mkdir (fs : FileSystem) (path : Str) : Outcome ε Unit × FileSystem :=
  if fs.fileExists path then (.raised (.ext "Unix.Unix_error" (str "EEXIST")), fs)
  else if !fs.isDir (dirname path) then (.raised (.ext "Unix.Unix_error" (str "ENOENT")), fs)
  else (.ok (), fs.set path (some .dir))

/-- `open_in_bin`, `in_channel_length`, `really_input` of the whole and `close_in`. -/
def readFile (fs : FileSystem) (path : Str) : Outcome ε Str :=
  match fs.node path with
  | some (.file bytes) => .ok bytes
  | some (.locked e) => .raised e
  | some .dir => .raised (.sysError (path ++ str ": Is a directory"))
  | none => .raised (.sysError (path ++ str ": No such file or directory"))

/-- `open_out_bin`, `output_string` and `close_out`. -/
def writeFile (fs : FileSystem) (path bytes : Str) : Outcome ε Unit × FileSystem :=
  match fs.node path with
  | some (.locked e) => (.raised e, fs)
  | some .dir => (.raised (.sysError (path ++ str ": Is a directory")), fs)
  | _ =>
    if fs.isDir (dirname path) then (.ok (), fs.set path (some (.file bytes)))
    else (.raised (.sysError (path ++ str ": No such file or directory")), fs)

/-- `Sys.remove`; not for directories. -/
def remove (fs : FileSystem) (path : Str) : Outcome ε Unit × FileSystem :=
  match fs.node path with
  | some .dir => (.raised (.sysError (path ++ str ": Is a directory")), fs)
  | none => (.raised (.sysError (path ++ str ": No such file or directory")), fs)
  | some _ => (.ok (), fs.set path none)

/-- `Unix.rmdir`. A file system here does not list its directories: `occupied` says whether something is left in
this one. -/
def rmdir (fs : FileSystem) (path : Str) (occupied : Bool) : Outcome ε Unit × FileSystem :=
  if fs.node path ≠ some .dir then (.raised (.ext "Unix.Unix_error" (str "ENOTDIR")), fs)
  else if occupied then (.raised (.ext "Unix.Unix_error" (str "ENOTEMPTY")), fs)
  else (.ok (), fs.set path none)

/-- Nothing stands below the directory. -/
def EmptyBelow (fs : FileSystem) (dir : Str) : Prop := ∀ name, name ≠ [] → fs.node (concat dir name) = none

theorem node_set (fs : FileSystem) (path p : Str) (n : Option Node) :
    (fs.set path n).node p = if p = path then n else fs.node p := by
  simp only [set, Function.update_apply]

theorem mkdir_cases (fs : FileSystem) (path : Str) :
    (fs.mkdir (ε := ε) path).2 = fs ∨
      (fs.node path = none ∧ fs.mkdir (ε := ε) path = (.ok (), fs.set path (some .dir))) := by
  unfold mkdir
  by_cases hex : fs.fileExists path = true
  · left
    rw [if_pos hex]
  · rw [if_neg hex]
    by_cases hparent : (!fs.isDir (dirname path)) = true
    · left
      rw [if_pos hparent]
    · right
      rw [if_neg hparent]
      refine ⟨?_, rfl⟩
      simp only [fileExists, Bool.or_eq_true, not_or, Bool.not_eq_true, Option.isSome_eq_false_iff,
        Option.isNone_iff_eq_none] at hex
      exact hex.2

/-- A write either leaves everything as it was and raises, or puts the bytes at the path. -/
theorem writeFile_cases (fs : FileSystem) (path bytes : Str) :
    (∃ e, fs.writeFile (ε := ε) path bytes = (.raised e, fs)) ∨
      fs.writeFile (ε := ε) path bytes = (.ok (), fs.set path (some (.file bytes))) := by
  unfold writeFile
  split
  · exact Or.inl ⟨_, rfl⟩
  · exact Or.inl ⟨_, rfl⟩
  · split
    · exact Or.inr rfl
    · exact Or.inl ⟨_, rfl⟩

/-- No path raises an exception of its own. -/
def Unlocked (fs : FileSystem) : Prop := ∀ p x, fs.node p ≠ some (.locked x)

theorem Unlocked.set {fs : FileSystem} (h : fs.Unlocked) {path : Str} {n : Node} (hn : ∀ x, n ≠ .locked x) :
    (fs.set path (some n)).Unlocked := by
  intro p x
  rw [node_set]
  split
  · exact fun hp => hn x (Option.some.inj hp)
  · exact h p x

theorem Unlocked.mkdir {fs : FileSystem} (h : fs.Unlocked) (path : Str) : (fs.mkdir (ε := ε) path).2.Unlocked := by
  obtain heq | ⟨-, heq⟩ := mkdir_cases (ε := ε) fs path
  · rw [heq]
    exact h
  · rw [heq]
    exact h.set fun x hx => by cases hx

theorem Unlocked.writeFile {fs : FileSystem} (h : fs.Unlocked) (path bytes : Str) :
    (fs.writeFile (ε := ε) path bytes).2.Unlocked := by
  obtain ⟨e, heq⟩ | heq := writeFile_cases (ε := ε) fs path bytes
  · rw [heq]
    exact h
  · rw [heq]
    exact h.set fun x hx => by cases hx

/-- Then a write raises nothing but `Sys_error`. -/
theorem Unlocked.writeFile_raised {fs : FileSystem} (h : fs.Unlocked) {path bytes : Str} {x : Exn}
    (hx : (fs.writeFile (ε := ε) path bytes).1 = .raised x) : ∃ msg, x = .sysError msg := by
  unfold FileSystem.writeFile at hx
  split at hx
  · rename_i e hlocked
    exact absurd hlocked (h path e)
  · cases hx
    exact ⟨_, rfl⟩
  · split at hx
    · cases hx
    · cases hx
      exact ⟨_, rfl⟩

theorem node_writeFile_of_ne (fs : FileSystem) {path p : Str} (bytes : Str) (hne : p ≠ path) :
    (fs.writeFile (ε := ε) path bytes).2.node p = fs.node p := by
  rcases writeFile_cases (ε := ε) fs path bytes with ⟨e, h⟩ | h
  · rw [h]
  · rw [h, node_set, if_neg hne]

/-- A removal touches its own path only, and nothing is there afterwards but a directory that was there before. -/
theorem node_remove (fs : FileSystem) (path p : Str) :
    (fs.remove (ε := ε) path).2.node p =
      if p = path ∧ fs.node path ≠ some .dir then none else fs.node p := by
  unfold remove
  split
  · rename_i h
    simp [h]
  · rename_i h
    by_cases hp : p = path
    · simp [hp, h]
    · simp [hp]
  · rename_i n h hn
    rw [node_set]
    by_cases hp : p = path
    · have hdir : n ≠ .dir := h
      simp [hp, hn, hdir]
    · simp [hp]

theorem node_rmdir (fs : FileSystem) (path p : Str) (occupied : Bool) :
    (fs.rmdir (ε := ε) path occupied).2.node p =
      if p = path ∧ fs.node path = some .dir ∧ occupied = false then none else fs.node p := by
  unfold rmdir
  by_cases hdir : fs.node path = some .dir
  · cases occupied with
    | true => simp [hdir]
    | false => simp [hdir, node_set]
  · simp [hdir]

theorem fileExists_of_length (fs : FileSystem) {path : Str} (h : 2 ≤ path.length) :
    fs.fileExists path = (fs.node path).isSome := by
  have h1 : path ≠ str "/" := fun he => by
    rw [he] at h
    exact absurd h (by decide)
  have h2 : path ≠ str "." := fun he => by
    rw [he] at h
    exact absurd h (by decide)
  unfold fileExists isDir
  cases hnode : fs.node path with
  | none => simp [h1, h2]
  | some n => simp

theorem mkdir_of_isDir {fs : FileSystem} {path : Str} (hno : fs.fileExists path = false)
    (hparent : fs.isDir (dirname path) = true) :
    fs.mkdir (ε := ε) path = (.ok (), fs.set path (some .dir)) := by
  simp [mkdir, hno, hparent]

theorem writeFile_of_isDir {fs : FileSystem} {path : Str} (bytes : Str) (hno : fs.node path = none)
    (hparent : fs.isDir (dirname path) = true) :
    fs.writeFile (ε := ε) path bytes = (.ok (), fs.set path (some (.file bytes))) := by
  simp [writeFile, hno, hparent]

/-- A file in a directory can be overwritten. -/
theorem writeFile_of_file {fs : FileSystem} {path old : Str} (bytes : Str) (hfile : fs.node path = some (.file old))
    (hparent : fs.isDir (dirname path) = true) :
    fs.writeFile (ε := ε) path bytes = (.ok (), fs.set path (some (.file bytes))) := by
  simp [writeFile, hfile, hparent]

/-- A path that can be opened for writing takes any bytes. -/
theorem writeFile_of_open {fs : FileSystem} {path tried : Str} (h : (fs.writeFile (ε := ε) path tried).1 = .ok ())
    (bytes : Str) :
    fs.writeFile (ε := ε) path bytes = (.ok (), fs.set path (some (.file bytes))) := by
  unfold writeFile at h ⊢
  split at h
  · cases h
  · cases h
  · split at h
    · rename_i hdir
      simp only [hdir, if_true]
    · cases h

theorem isDir_set_self (fs : FileSystem) (path : Str) : (fs.set path (some .dir)).isDir path = true := by
  simp [isDir, node_set]

end FileSystem

/-! ## Paths -/

/-- What `concat` puts in front of a file name. -/
def intoDir (dir : Str) : Str := concat dir []

theorem concat_eq_append (dir file : Str) : concat dir file = intoDir dir ++ file := by
  unfold intoDir concat
  split <;> simp

theorem length_le_intoDir (dir : Str) : dir.length ≤ (intoDir dir).length := by
  unfold intoDir concat
  split <;> simp

theorem concat_concat {a b c : Str} (hb : b ≠ []) (hlast : b.getLast? ≠ some (chr '/')) :
    concat (concat a b) c = intoDir a ++ b ++ [chr '/'] ++ c := by
  have hne : concat a b ≠ [] := by
    rw [concat_eq_append]
    simp [hb]
  have hend : (concat a b).getLast? ≠ some (chr '/') := by
    rw [concat_eq_append, List.getLast?_append_of_ne_nil _ hb]
    exact hlast
  rw [concat, if_neg (by rintro (h | h) <;> contradiction), concat_eq_append]

/-- A name without slashes. -/
def IsComponent (s : Str) : Prop := s ≠ [] ∧ ∀ c ∈ s, c ≠ chr '/'

theorem IsComponent.getLast?_ne {s : Str} (h : IsComponent s) : s.getLast? ≠ some (chr '/') :=
  fun hlast => h.2 _ (List.mem_of_getLast? hlast) rfl

theorem rdropWhile_isSep {s : Str} (h : s.getLast? ≠ some (chr '/')) : s.rdropWhile (fun c => c == chr '/') = s := by
  rw [List.rdropWhile_eq_self_iff]
  intro hne hlast
  apply h
  rw [List.getLast?_eq_getLast_of_ne_nil hne]
  simpa using hlast

theorem dirname_concat {dir base : Str} (hne : dir ≠ []) (hend : dir.getLast? ≠ some (chr '/'))
    (hbase : IsComponent base) : dirname (concat dir base) = dir := by
  have hcat : concat dir base = dir ++ [chr '/'] ++ base := by
    rw [concat, if_neg (by simp [hne, hend])]
  have hlast : (concat dir base).getLast? ≠ some (chr '/') := by
    rw [hcat, List.getLast?_append_of_ne_nil _ hbase.1]
    exact hbase.getLast?_ne
  have hcomp : (concat dir base).rdropWhile (fun c => !(c == chr '/')) = dir ++ [chr '/'] := by
    rw [hcat, List.rdropWhile, List.reverse_append, List.dropWhile_append_of_pos]
    · simp
    · intro c hc
      simpa using hbase.2 c (List.mem_reverse.1 hc)
  have hcat_ne : concat dir base ≠ [] := by simp [hcat]
  unfold dirname
  simp only [hcat_ne, if_false, rdropWhile_isSep hlast, hcomp]
  split
  · rename_i h
    simp at h
  · rw [List.rdropWhile_concat_pos _ _ _ (by simp), rdropWhile_isSep hend]
    split
    · contradiction
    · rfl

theorem concat_component (dir : Str) {base : Str} (hbase : IsComponent base) :
    concat dir base ≠ [] ∧ (concat dir base).getLast? ≠ some (chr '/') := by
  rw [concat_eq_append]
  refine ⟨by simp [hbase.1], ?_⟩
  rw [List.getLast?_append_of_ne_nil _ hbase.1]
  exact hbase.getLast?_ne

/-- Dropping a trailing component drops at least one byte. -/
theorem length_rdropWhile_lt {p : UInt8 → Bool} {s : Str} (hne : s ≠ []) (hlast : p (s.getLast hne) = true) :
    (s.rdropWhile p).length < s.length := by
  have hsplit := List.dropLast_append_getLast hne
  have hdrop : s.rdropWhile p = s.dropLast.rdropWhile p := by
    conv_lhs => rw [← hsplit]
    exact List.rdropWhile_concat_pos p s.dropLast _ hlast
  have hle : (s.dropLast.rdropWhile p).length ≤ s.dropLast.length :=
    (List.rdropWhile_prefix p s.dropLast).length_le
  have hpos : 0 < s.length := List.length_pos_iff.2 hne
  rw [hdrop]
  rw [List.length_dropLast] at hle
  omega

theorem length_dirname_lt {p : Str} (h2 : 2 ≤ p.length) : (dirname p).length < p.length := by
  have hdrop : ∀ (q : UInt8 → Bool) (s : Str), (s.rdropWhile q).length ≤ s.length :=
    fun q s => (List.rdropWhile_prefix q s).length_le
  have hone : ∀ c, (str c).length = 1 → (str c).length < p.length := fun c hc => by omega
  unfold dirname
  simp only []
  split
  · exact hone "." rfl
  split
  · exact hone "/" rfl
  rename_i hbase
  generalize hdef : p.rdropWhile (fun c => c == chr '/') = base at hbase ⊢
  have hle := hdrop (fun c => c == chr '/') p
  have hlt : (base.rdropWhile fun c => !(c == chr '/')).length < base.length := by
    subst hdef
    refine length_rdropWhile_lt hbase ?_
    have hnot := List.rdropWhile_last_not (fun c => c == chr '/') p hbase
    simpa using hnot
  rw [hdef] at hle
  split
  · exact hone "." rfl
  split
  · exact hone "/" rfl
  · have hle' := hdrop (fun c => c == chr '/') (base.rdropWhile fun c => !(c == chr '/'))
    omega

/-- The parent of a path of at most one byte is always there. -/
theorem dirname_of_short {p : Str} (h : p.length < 2) : dirname p = str "." ∨ dirname p = str "/" := by
  rcases p with _ | ⟨c, _ | ⟨c', rest⟩⟩
  · exact Or.inl rfl
  · revert c
    exact forall_byte (by decide +kernel)
  · simp at h

end OCaml
