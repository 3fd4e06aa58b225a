import Mathlib.Algebra.Group.Defs
import Mathlib.Data.List.Infix

/-!
# Runs of a step function

A run is a list of actions folded over a state. `Along step ok s as` says that every action of the run meets
`ok` in the state before it; an invariant that such steps preserve holds at every state on the way.

A run that some action is the end of goes as far as the actions before it: `survived`.

Two runs are compared through the actions of one owner: where a relation between states unwinds, the owner's
results depend on the owner's own actions only.

A part of the state that a step either leaves alone or overwrites is a register: after a run it holds what was
written last. One that a step adds to is a measure: after a run it has grown by the tally of the run.
-/

namespace Run

variable {σ α : Type*} {step : σ → α → σ} {ok : σ → α → Prop} {I : σ → Prop}

/-- Every action meets `ok` in the state it meets. -/
def Along (step : σ → α → σ) (ok : σ → α → Prop) : σ → List α → Prop
  | _, [] => True
  | s, a :: as => ok s a ∧ Along step ok (step s a) as

/-- `Along`, action by action. -/
theorem along_iff {s : σ} {as : List α} :
    Along step ok s as ↔ ∀ pre a, pre ++ [a] <+: as → ok (pre.foldl step s) a := by
  induction as generalizing s with
  | nil =>
    refine iff_of_true trivial ?_
    intro pre a h
    simp at h
  | cons b as ih =>
    rw [Along, ih]
    constructor
    · rintro ⟨hb, has⟩ pre a h
      cases pre with
      | nil =>
        obtain ⟨rfl, _⟩ := List.cons_prefix_cons.1 h
        exact hb
      | cons c pre =>
        obtain ⟨rfl, htail⟩ := List.cons_prefix_cons.1 h
        exact has pre a htail
    · intro h
      refine ⟨h [] b (List.cons_prefix_cons.2 ⟨rfl, List.nil_prefix⟩), ?_⟩
      intro pre a hpre
      exact h (b :: pre) a (List.cons_prefix_cons.2 ⟨rfl, hpre⟩)

/-- An invariant holds at every state of the run. -/
theorem Along.invariant (hstep : ∀ s a, I s → ok s a → I (step s a)) {s : σ} {as : List α} (hs : I s)
    (h : Along step ok s as) {pre : List α} (hpre : pre <+: as) : I (pre.foldl step s) := by
  induction as generalizing s pre with
  | nil =>
    rw [List.prefix_nil.1 hpre]
    exact hs
  | cons a as ih =>
    cases pre with
    | nil => exact hs
    | cons b pre =>
      obtain ⟨rfl, htail⟩ := List.cons_prefix_cons.1 hpre
      exact ih (hstep s b hs h.1) h.2 htail

/-- An invariant of every step, whatever the action. -/
theorem invariant (hstep : ∀ s a, I s → I (step s a)) {s : σ} (hs : I s) (as : List α) : I (as.foldl step s) := by
  induction as generalizing s with
  | nil => exact hs
  | cons a as ih => exact ih (hstep s a hs)

/-- An invariant of the steps that the run takes. -/
theorem invariant_of_mem {P : α → Prop} (hstep : ∀ s a, I s → P a → I (step s a)) {s : σ} (hs : I s) (as : List α)
    (has : ∀ a ∈ as, P a) : I (as.foldl step s) := by
  induction as generalizing s with
  | nil => exact hs
  | cons a as ih =>
    obtain ⟨ha, hrest⟩ := List.forall_mem_cons.1 has
    exact ih (hstep s a hs ha) hrest

/-- Where a step keeps `I` exactly when it meets `ok`, `I` holds at every state exactly when every step meets it.
`J` is what holds along any run. -/
theorem invariant_iff_along {J : σ → Prop} (hJ : ∀ s a, J s → J (step s a))
    (hI : ∀ s a, J s → I s → (I (step s a) ↔ ok s a)) {s : σ} (hj : J s) (hs : I s) (as : List α) :
    (∀ pre, pre <+: as → I (pre.foldl step s)) ↔ Along step ok s as := by
  constructor
  · intro h
    rw [along_iff]
    intro pre a hpre
    have hafter := h _ hpre
    rw [List.foldl_append, List.foldl_cons, List.foldl_nil] at hafter
    have hbefore := h pre ((List.prefix_append pre [a]).trans hpre)
    exact (hI _ a (invariant hJ hj pre) hbefore).1 hafter
  · intro h pre hpre
    have hboth : J (pre.foldl step s) ∧ I (pre.foldl step s) :=
      h.invariant (I := fun s => J s ∧ I s) (fun s a hst ha => ⟨hJ s a hst.1, (hI s a hst.1 hst.2).2 ha⟩) ⟨hj, hs⟩ hpre
    exact hboth.2

/-- Two conditions on a step agree on a run if they agree wherever `I` holds and one of them keeps `I`. -/
theorem along_congr_of_kept {ok' : σ → α → Prop} (hstep : ∀ s a, I s → ok' s a → I (step s a))
    (hok : ∀ s a, I s → (ok s a ↔ ok' s a)) {s : σ} (hs : I s) (as : List α) :
    Along step ok s as ↔ Along step ok' s as := by
  induction as generalizing s with
  | nil => exact Iff.rfl
  | cons a as ih =>
    rw [Along, Along, hok s a hs]
    exact and_congr_right fun ha => ih (hstep s a hs ha)

/-- Two conditions on a step that agree wherever `I` holds agree on every run. -/
theorem along_congr {ok' : σ → α → Prop} (hstep : ∀ s a, I s → I (step s a))
    (hok : ∀ s a, I s → (ok s a ↔ ok' s a)) {s : σ} (hs : I s) (as : List α) :
    Along step ok s as ↔ Along step ok' s as :=
  along_congr_of_kept (fun s a h _ => hstep s a h) hok hs as

/-- What holds of every action of a run. -/
theorem along_of_forall {P : α → Prop} {s : σ} {as : List α} (h : ∀ a ∈ as, P a) :
    Along step (fun _ a => P a) s as :=
  along_iff.2 fun _ a hpre => h a (hpre.subset List.mem_concat_self)

/-! ## Runs that end early -/

section Survived

variable {ends : σ → α → Bool}

/-- The actions before the first that is the end of the run. -/
def survived (step : σ → α → σ) (ends : σ → α → Bool) : σ → List α → List α
  | _, [] => []
  | s, a :: as => if ends s a then [] else a :: survived step ends (step s a) as

theorem survived_prefix (s : σ) (as : List α) : survived step ends s as <+: as := by
  induction as generalizing s with
  | nil => exact List.prefix_refl _
  | cons a as ih =>
    unfold survived
    split
    · exact List.nil_prefix
    · exact List.cons_prefix_cons.2 ⟨rfl, ih (step s a)⟩

theorem along_survived (s : σ) (as : List α) :
    Along step (fun s a => ends s a = false) s (survived step ends s as) := by
  induction as generalizing s with
  | nil => exact trivial
  | cons a as ih =>
    unfold survived
    split
    · exact trivial
    · rename_i ha
      exact ⟨Bool.eq_false_iff.2 ha, ih (step s a)⟩

theorem survived_eq_self {s : σ} {as : List α} (h : Along step (fun s a => ends s a = false) s as) :
    survived step ends s as = as := by
  induction as generalizing s with
  | nil => rfl
  | cons a as ih =>
    rw [survived, h.1, if_neg Bool.false_ne_true, ih h.2]

end Survived

/-! ## Steps with answers -/

section Exec

variable {τ ρ : Type*} {f : σ → α → ρ × σ} {g : τ → α → ρ × τ} {R : σ → τ → Prop}

/-- The answers to the actions, in order, and the state they leave. -/
def exec (f : σ → α → ρ × σ) : σ → List α → List ρ × σ
  | s, [] => ([], s)
  | s, a :: as =>
    let r := f s a
    let rest := exec f r.2 as
    (r.1 :: rest.1, rest.2)

/-- **Refinement**: where every step answers as the abstract one and keeps the relation, every run does. -/
theorem exec_refines (hstep : ∀ s t a, R s t → (f s a).1 = (g t a).1 ∧ R (f s a).2 (g t a).2) {s : σ} {t : τ}
    (hR : R s t) (as : List α) : (exec f s as).1 = (exec g t as).1 ∧ R (exec f s as).2 (exec g t as).2 := by
  induction as generalizing s t with
  | nil => exact ⟨rfl, hR⟩
  | cons a as ih =>
    obtain ⟨hanswer, hnext⟩ := hstep s t a hR
    obtain ⟨hanswers, hlast⟩ := ih hnext
    refine ⟨?_, hlast⟩
    simp only [exec]
    rw [hanswer, hanswers]

theorem exec_invariant (hstep : ∀ s a, I s → I (f s a).2) {s : σ} (hs : I s) (as : List α) :
    I (exec f s as).2 := by
  induction as generalizing s with
  | nil => exact hs
  | cons a as ih => exact ih (hstep s a hs)

/-! ### Specifications that are relations -/

section Follows

variable {S : τ → α → ρ → τ → Prop} {v : σ → τ}

end Follows

end Exec

/-! ## The actions of one owner -/

section Owner

variable {ρ : Type*} {out : σ → α → ρ} {own : α → Prop} [DecidablePred own] {R : σ → σ → Prop}

/-- The results of the owner's actions, in order. -/
def outputs (step : σ → α → σ) (out : σ → α → ρ) (own : α → Prop) [DecidablePred own] : σ → List α → List ρ
  | _, [] => []
  | s, a :: as =>
    if own a then out s a :: outputs step out own (step s a) as else outputs step out own (step s a) as

/-- States related by `R` look alike to the owner: nobody else can make a difference, and an action of the owner
returns the same in both. -/
structure Unwinds (step : σ → α → σ) (out : σ → α → ρ) (own : α → Prop) (R : σ → σ → Prop) : Prop where
  others : ∀ {s s' a}, R s s' → ¬ own a → R (step s a) s'
  owner : ∀ {s s' a}, R s s' → own a → R (step s a) (step s' a)
  result : ∀ {s s' a}, R s s' → own a → out s a = out s' a

/-- The owner cannot tell a run from the run of its own actions. -/
theorem Unwinds.outputs_filter (h : Unwinds step out own R) {s s' : σ} (hR : R s s') (as : List α) :
    outputs step out own s as = outputs step out own s' (as.filter fun a => decide (own a)) := by
  induction as generalizing s s' with
  | nil => rfl
  | cons a as ih =>
    by_cases ha : own a
    · rw [List.filter_cons_of_pos (by simpa using ha)]
      simp only [outputs, if_pos ha]
      rw [h.result hR ha, ih (h.owner hR ha)]
    · rw [List.filter_cons_of_neg (by simpa using ha)]
      simp only [outputs, if_neg ha]
      exact ih (h.others hR ha)

/-- … and leaves what that run leaves. -/
theorem Unwinds.foldl_filter (h : Unwinds step out own R) {s s' : σ} (hR : R s s') (as : List α) :
    R (as.foldl step s) ((as.filter fun a => decide (own a)).foldl step s') := by
  induction as generalizing s s' with
  | nil => exact hR
  | cons a as ih =>
    by_cases ha : own a
    · rw [List.filter_cons_of_pos (by simpa using ha)]
      exact ih (h.owner hR ha)
    · rw [List.filter_cons_of_neg (by simpa using ha)]
      exact ih (h.others hR ha)

/-- Where nobody else ends the run, it ends where the run of the owner's actions does. -/
theorem Unwinds.survived_filter (h : Unwinds step out own R) {ends : σ → α → Bool}
    (howner : ∀ {s s' a}, R s s' → own a → ends s a = ends s' a)
    (hothers : ∀ {s s' a}, R s s' → ¬ own a → ends s a = false) {s s' : σ} (hR : R s s') (as : List α) :
    (survived step ends s as).filter (fun a => decide (own a)) =
      survived step ends s' (as.filter fun a => decide (own a)) := by
  induction as generalizing s s' with
  | nil => rfl
  | cons a as ih =>
    by_cases ha : own a
    · rw [List.filter_cons_of_pos (by simpa using ha), survived, survived, howner hR ha]
      split
      · rfl
      · rw [List.filter_cons_of_pos (by simpa using ha), ih (h.owner hR ha)]
    · rw [List.filter_cons_of_neg (by simpa using ha), survived, hothers hR ha, if_neg Bool.false_ne_true,
        List.filter_cons_of_neg (by simpa using ha), ih (h.others hR ha)]

theorem Unwinds.outputs_eq (h : Unwinds step out own R) {s : σ} (hR : R s s) {as as' : List α}
    (hsame : (as.filter fun a => decide (own a)) = as'.filter fun a => decide (own a)) :
    outputs step out own s as = outputs step out own s as' := by
  rw [h.outputs_filter hR as, h.outputs_filter hR as', hsame]

end Owner

/-! ## Registers and measures -/

section Register

variable {β : Type*} {v : σ → Option β} {written : α → Option β}

/-- **A register holds what was written last.** -/
theorem register (hstep : ∀ s a, I s → I (step s a))
    (hview : ∀ s a, I s → v (step s a) = (written a).or (v s)) {s : σ} (hs : I s) (as : List α) :
    v (as.foldl step s) = (as.filterMap written).getLast?.or (v s) := by
  induction as generalizing s with
  | nil => rfl
  | cons a as ih =>
    rw [List.foldl_cons, ih (hstep s a hs), hview s a hs]
    cases hw : written a with
    | none => rw [List.filterMap_cons_none hw, Option.none_or]
    | some b =>
      rw [List.filterMap_cons_some hw, List.getLast?_cons]
      cases (as.filterMap written).getLast? with
      | none => rfl
      | some c => rfl

end Register

section Tally

variable {M : Type*} [AddMonoid M] {m : σ → M} {w : σ → α → M}

/-- What the actions weigh together, each in the state it meets. -/
def tally (step : σ → α → σ) (w : σ → α → M) : σ → List α → M
  | _, [] => 0
  | s, a :: as => w s a + tally step w (step s a) as

/-- **A measure grows by the tally of the run.** -/
theorem measure_eq_tally (hstep : ∀ s a, I s → ok s a → I (step s a))
    (hm : ∀ s a, I s → ok s a → m (step s a) = m s + w s a) {s : σ} (hs : I s) {as : List α}
    (has : Along step ok s as) : m (as.foldl step s) = m s + tally step w s as := by
  induction as generalizing s with
  | nil => rw [List.foldl_nil, tally, add_zero]
  | cons a as ih => rw [List.foldl_cons, ih (hstep s a hs has.1) has.2, hm s a hs has.1, tally, add_assoc]

end Tally

section Trace

variable {β : Type*} {v : σ → List β} {added : σ → α → List β}

/-- What the actions add, in order, each in the state it meets. -/
def trace (step : σ → α → σ) (added : σ → α → List β) : σ → List α → List β
  | _, [] => []
  | s, a :: as => added s a ++ trace step added (step s a) as

/-- **A list that steps only append to grows by the trace of the run.** -/
theorem list_eq_trace (hview : ∀ s a, v (step s a) = v s ++ added s a) (s : σ) (as : List α) :
    v (as.foldl step s) = v s ++ trace step added s as := by
  induction as generalizing s with
  | nil => rw [List.foldl_nil, trace, List.append_nil]
  | cons a as ih => rw [List.foldl_cons, ih, hview, trace, List.append_assoc]

end Trace

end Run
