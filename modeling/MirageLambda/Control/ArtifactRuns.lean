import MirageLambda.Control.ArtifactStore
import MirageLambda.Lib.Run

/-!
# Reading what was put (control/artifact_store.ml:36-89)

Runs of `put_if_absent`, `get` and `delete`, in which a put may also be interrupted after any number of bytes.
`put_if_absent` writes the object in place and tests only whether something is at its path before it says
`` `Already_present ``, so two things go wrong: a put that was interrupted leaves a file that the next put of the same
bytes takes for the object, and a put of other bytes under the digest of an object is accepted without the digest being
compared. `read_your_write_iff` says that there is nothing else.
-/

namespace MirageLambda
open OCaml

namespace ArtifactStore

/-- The files after a put of which only `n` bytes were written when the process stopped. One that would not have
written anything ends as it would have. -/
def interruptedPut (t : ArtifactStore) (fs : FileSystem) (d : Digest) (b : Str) (n : Nat) : FileSystem :=
  let put := t.putIfAbsent fs d b
  if put.1 = .ok .created then put.2.set (t.pathFor d) (some (.file (b.take n))) else put.2

/-- A call of the store, or a put that is interrupted. -/
inductive Call where
  | put (digestBytes : Digest) (bytes : Str)
  | interrupted (digestBytes : Digest) (bytes : Str) (written : Nat)
  | get (digestBytes : Digest)
  | delete (digestBytes : Digest) (others : Bool)

def step (t : ArtifactStore) (fs : FileSystem) : Call → FileSystem
  | .put d b => (t.putIfAbsent fs d b).2
  | .interrupted d b n => t.interruptedPut fs d b n
  | .get _ => fs
  | .delete d others => (t.delete fs d others).2

/-- If the put returns, the get after it returns the bytes. -/
def Call.ReadsBack (t : ArtifactStore) (fs : FileSystem) : Call → Prop
  | .put d b => ∀ r, (t.putIfAbsent fs d b).1 = .ok r → t.get (t.putIfAbsent fs d b).2 d = .ok b
  | _ => True

/-- The condition: the put finds nothing at the path of the object, or a file with its own bytes, and these hash to
the digest. -/
def Call.Matches (t : ArtifactStore) (fs : FileSystem) : Call → Prop
  | .put d b => fs.node (t.pathFor d) = none ∨ (fs.node (t.pathFor d) = some (.file b) ∧ digestOf b = d)
  | _ => True

/-! ## Directories of objects -/

/-- What is at the path of an object is in its directory. -/
def Housed (t : ArtifactStore) (fs : FileSystem) : Prop :=
  ∀ d, fs.node (t.pathFor d) ≠ none → fs.node (t.dirFor d) ≠ none

theorem housed_put {t : ArtifactStore} {fs : FileSystem} (h : t.Housed fs) (d : Digest) (b : Str) :
    t.Housed (t.putIfAbsent fs d b).2 := by
  intro d' hthere
  have hkeep : fs.node (t.pathFor d') ≠ none → (t.putIfAbsent fs d b).2.node (t.dirFor d') ≠ none := by
    intro hbefore
    obtain ⟨n, hn⟩ := Option.ne_none_iff_exists'.1 (h d' hbefore)
    rw [t.node_putIfAbsent_of_some d b hn (t.dirFor_ne_pathFor d' d)]
    exact Option.some_ne_none n
  obtain ⟨-, hframe⟩ | ⟨-, -, hframe⟩ | ⟨hcreated, -, hnode⟩ := t.putIfAbsent_cases fs d b
  · rw [hframe] at hthere
    exact hkeep hthere
  · rw [hframe] at hthere
    exact hkeep hthere
  · by_cases hd : d' = d
    · subst hd
      exact node_dirFor_of_put hcreated
    · rw [hnode, if_neg hd] at hthere
      exact hkeep hthere

theorem housed_interruptedPut {t : ArtifactStore} {fs : FileSystem} (h : t.Housed fs) (d : Digest) (b : Str) (n : Nat) :
    t.Housed (t.interruptedPut fs d b n) := by
  have hput := housed_put h d b
  unfold interruptedPut
  simp only []
  split
  · rename_i hcreated
    intro d' hthere
    rw [FileSystem.node_set, if_neg (t.dirFor_ne_pathFor d' d)]
    by_cases hd : d' = d
    · subst hd
      exact node_dirFor_of_put hcreated
    · rw [FileSystem.node_set, if_neg fun heq => hd (pathFor_inj heq)] at hthere
      exact hput d' hthere
  · exact hput

theorem dirFor_ne_metadata (t : ArtifactStore) (d d' : Digest) :
    t.dirFor d ≠ concat (t.dirFor d') (str "metadata.json") := by
  intro h
  have hlen := congrArg List.length h
  have hinto := length_le_intoDir (t.dirFor d')
  have hname : (str "metadata.json").length = 13 := rfl
  rw [concat_eq_append, List.length_append, hname, length_dirFor] at hlen
  rw [length_dirFor] at hinto
  omega

/-- A directory goes only when the bundle in it has gone. -/
theorem housed_delete {t : ArtifactStore} {fs : FileSystem} (h : t.Housed fs) (d : Digest) (others : Bool) :
    t.Housed (t.delete fs d others).2 := by
  intro d'
  have hbundle : concat (t.dirFor d) (str "bundle.mlb") = t.pathFor d := rfl
  unfold delete
  simp only [hbundle]
  split
  · set removed := ((fs.remove (ε := Error) (t.pathFor d)).2.remove (ε := Error)
      (concat (t.dirFor d) (str "metadata.json"))).2 with hremoved
    have hgone : ∀ p, removed.node p ≠ none → fs.node p ≠ none := by
      intro p hp hnone
      simp [hremoved, FileSystem.node_remove, hnone] at hp
    have hdir : removed.node (t.dirFor d') = fs.node (t.dirFor d') := by
      rw [hremoved, FileSystem.node_remove, if_neg fun hmeta => t.dirFor_ne_metadata d' d hmeta.1,
        FileSystem.node_remove, if_neg fun hpath => t.dirFor_ne_pathFor d' d hpath.1]
    intro hthere
    have hbefore : removed.node (t.pathFor d') ≠ none := by
      intro hnone
      rw [FileSystem.node_rmdir, hnone] at hthere
      simp at hthere
    rw [FileSystem.node_rmdir, hdir, if_neg]
    · exact h d' (hgone _ hbefore)
    · rintro ⟨heq, -, hfree⟩
      rw [dirFor_inj heq] at hbefore
      rw [fileExists_pathFor, Option.isSome_iff_ne_none.2 hbefore] at hfree
      simp at hfree
  · exact h d'

theorem housed_step {t : ArtifactStore} {fs : FileSystem} (h : t.Housed fs) (call : Call) : t.Housed (t.step fs call) := by
  cases call with
  | put d b => exact housed_put h d b
  | interrupted d b n => exact housed_interruptedPut h d b n
  | get d => exact h
  | delete d others => exact housed_delete h d others

theorem housed_of_emptyBelow {t : ArtifactStore} {fs : FileSystem} (hempty : fs.EmptyBelow t.root) : t.Housed fs :=
  fun d hthere => absurd (node_pathFor_of_emptyBelow hempty d) hthere

/-! ## What a put returns is read back -/

/-- Whatever stands at the path of an object is taken for the object. -/
theorem putIfAbsent_of_present {t : ArtifactStore} {fs : FileSystem} {d : Digest} (h : t.Housed fs)
    (hthere : fs.node (t.pathFor d) ≠ none) (b : Str) : t.putIfAbsent fs d b = (.ok .alreadyPresent, fs) := by
  have hlen := t.length_dirFor d
  have hdir : fs.fileExists (dirname (t.pathFor d)) = true := by
    rw [← dirFor_eq, FileSystem.fileExists_of_length _ (by omega)]
    exact Option.isSome_iff_ne_none.2 (h d hthere)
  have hmade : ensureDir fs (dirname (t.pathFor d)) = (.ok (), fs) := by
    rw [ensureDir, mkAll, if_pos hdir]
  have hpresent : fs.fileExists (t.pathFor d) = true := by
    rw [fileExists_pathFor]
    exact Option.isSome_iff_ne_none.2 hthere
  simp only [putIfAbsent, hmade, hpresent, if_true]

/-- The object that a put creates is read back. -/
theorem get_of_created {t : ArtifactStore} {fs : FileSystem} {d : Digest} {b : Str} {r : Put}
    (hnone : fs.node (t.pathFor d) = none) (hr : (t.putIfAbsent fs d b).1 = .ok r) :
    t.get (t.putIfAbsent fs d b).2 d = .ok b := by
  rw [get_eq_ok]
  obtain ⟨hfails, -⟩ | ⟨-, hthere, -⟩ | ⟨-, hd, hnode⟩ := t.putIfAbsent_cases fs d b
  · exact absurd hr (hfails r)
  · exact absurd hnone hthere
  · refine ⟨?_, hd⟩
    rw [hnode, if_pos rfl]

theorem readsBack_iff {t : ArtifactStore} {fs : FileSystem} (h : t.Housed fs) (call : Call) :
    call.ReadsBack t fs ↔ call.Matches t fs := by
  cases call with
  | interrupted d b n => exact Iff.rfl
  | get d => exact Iff.rfl
  | delete d others => exact Iff.rfl
  | put d b =>
    by_cases hnone : fs.node (t.pathFor d) = none
    · exact iff_of_true (fun r hr => get_of_created hnone hr) (Or.inl hnone)
    · have hput := putIfAbsent_of_present h hnone b
      constructor
      · intro hreads
        have hget := hreads .alreadyPresent (by rw [hput])
        rw [hput] at hget
        exact Or.inr (get_eq_ok.1 hget)
      · rintro (hno | hobject) r hr
        · exact absurd hno hnone
        · rw [hput]
          exact get_eq_ok.2 hobject

/-- **What a put returns is read back**, in every run from an empty store, exactly when every put finds nothing at
the path of its object or the object itself. -/
theorem read_your_write_iff (t : ArtifactStore) (fs : FileSystem) (hempty : fs.EmptyBelow t.root) (calls : List Call) :
    (∀ pre d b r, pre ++ [.put d b] <+: calls → (t.putIfAbsent (pre.foldl t.step fs) d b).1 = .ok r →
      t.get (t.putIfAbsent (pre.foldl t.step fs) d b).2 d = .ok b) ↔
    Run.Along t.step (fun fs call => call.Matches t fs) fs calls := by
  rw [← Run.along_congr (I := t.Housed) (fun fs call h => housed_step h call) (fun fs call h => readsBack_iff h call)
    (housed_of_emptyBelow hempty), Run.along_iff]
  constructor
  · intro h pre call hpre
    cases call with
    | put d b => exact fun r hr => h pre d b r hpre hr
    | interrupted d b n => trivial
    | get d => trivial
    | delete d others => trivial
  · intro h pre d b r hpre hr
    exact h pre (.put d b) hpre r hr

/-! ## Runs on a new store -/

def srv : ArtifactStore := ⟨str "/srv"⟩

def newFiles : FileSystem := ⟨fun p => if p = str "/srv" then some .dir else none⟩

theorem emptyBelow_newFiles : newFiles.EmptyBelow srv.root := by
  intro name hne
  have hcat : concat srv.root name = str "/srv" ++ ([chr '/'] ++ name) := by
    rw [concat, if_neg (by decide), List.append_assoc]
    rfl
  have hlonger : str "/srv" ++ ([chr '/'] ++ name) ≠ str "/srv" := by
    simp
  rw [hcat]
  simp only [newFiles, hlonger, if_false]

theorem putIfAbsent_newFiles (b : Str) :
    (srv.putIfAbsent newFiles (digestOf b) b).1 = .ok .created ∧
      (srv.putIfAbsent newFiles (digestOf b) b).2.node (srv.pathFor (digestOf b)) = some (.file b) := by
  have hcreated := putIfAbsent_created srv newFiles b (by decide) (by decide) (by decide) emptyBelow_newFiles
  obtain ⟨hfails, -⟩ | ⟨-, hthere, -⟩ | ⟨-, -, hnode⟩ := srv.putIfAbsent_cases newFiles (digestOf b) b
  · exact absurd hcreated (hfails _)
  · exact absurd (node_pathFor_of_emptyBelow emptyBelow_newFiles _) hthere
  · refine ⟨hcreated, ?_⟩
    rw [hnode, if_pos rfl]

/-- A put that stops before its first byte leaves an empty file, which the put after the restart takes for the
object. -/
theorem put_after_interrupted {b : Str} (hb : b ≠ []) :
    let fs := srv.step newFiles (.interrupted (digestOf b) b 0)
    (srv.putIfAbsent fs (digestOf b) b).1 = .ok .alreadyPresent ∧
      srv.get (srv.putIfAbsent fs (digestOf b) b).2 (digestOf b) ≠ .ok b := by
  intro fs
  have hempty : fs.node (srv.pathFor (digestOf b)) = some (.file []) := by
    show (srv.interruptedPut newFiles (digestOf b) b 0).node (srv.pathFor (digestOf b)) = some (.file [])
    rw [interruptedPut]
    simp only [(putIfAbsent_newFiles b).1, if_true, FileSystem.node_set, List.take_zero]
  have hhoused : srv.Housed fs := housed_step (housed_of_emptyBelow emptyBelow_newFiles) _
  have hthere : fs.node (srv.pathFor (digestOf b)) ≠ none := by
    rw [hempty]
    exact Option.some_ne_none _
  rw [putIfAbsent_of_present hhoused hthere b]
  refine ⟨rfl, ?_⟩
  rw [Ne, get_eq_ok, hempty]
  rintro ⟨hfile, -⟩
  cases hfile
  exact hb rfl

theorem interrupted_put_shadows :
    let b := str "module.exports = 1"
    let d := digestOf b
    let fs := srv.step newFiles (.interrupted d b 0)
    (srv.putIfAbsent fs d b).1 = .ok .alreadyPresent ∧ srv.get (srv.putIfAbsent fs d b).2 d ≠ .ok b :=
  put_after_interrupted (by decide)

/-- The second put of an object finds the first one's bytes. -/
theorem matches_twice (b : Str) :
    Run.Along srv.step (fun fs call => call.Matches srv fs) newFiles
      [.put (digestOf b) b, .get (digestOf b), .put (digestOf b) b] := by
  refine ⟨?_, trivial, ?_, trivial⟩
  · exact Or.inl (node_pathFor_of_emptyBelow emptyBelow_newFiles _)
  · exact Or.inr ⟨(putIfAbsent_newFiles b).2, rfl⟩

theorem read_your_write_twice :
    let b := str "module.exports = 1"
    let calls : List Call := [.put (digestOf b) b, .get (digestOf b), .put (digestOf b) b]
    ∀ pre d b r, pre ++ [.put d b] <+: calls → (srv.putIfAbsent (pre.foldl srv.step newFiles) d b).1 = .ok r →
      srv.get (srv.putIfAbsent (pre.foldl srv.step newFiles) d b).2 d = .ok b := by
  intro b calls
  exact (read_your_write_iff srv newFiles emptyBelow_newFiles calls).2 (matches_twice b)

end ArtifactStore
end MirageLambda
