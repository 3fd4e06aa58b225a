import MirageLambda.Lib.Str

/-!
# Paths as lists of segments

Splitting at a separator and joining again are the library's `List.splitOn` and `List.intercalate`;
`splitOnChar_eq_splitOn` makes their lemmas apply.

`Climbs` and `remaining` say what a relative path means, with no stack: a path leaves a directory of depth `n` if some
prefix of it has more steps up than `n` and the names in it; a name remains unless what follows it climbs over it.
-/

namespace OCaml

theorem splitOnChar_eq_splitOn (c : UInt8) (s : Str) : splitOnChar c s = s.splitOn c := by
  induction s with
  | nil => rfl
  | cons x xs ih =>
    rw [splitOnChar, List.splitOn_cons_eq_if_modifyHead, ih]
    by_cases hx : x = c
    · simp [hx]
    · rcases hsplit : List.splitOn c xs with _ | ⟨p, ps⟩
      · exact absurd hsplit (List.splitOn_ne_nil c xs)
      · simp [hx]

/-- `String.concat "c"` undoes the split. -/
theorem intercalate_splitOnChar (c : UInt8) (s : Str) : [c].intercalate (splitOnChar c s) = s := by
  rw [splitOnChar_eq_splitOn, List.intercalate_splitOn]

theorem splitOnChar_append (c : UInt8) (s t : Str) :
    splitOnChar c (s ++ c :: t) = splitOnChar c s ++ splitOnChar c t := by
  rw [splitOnChar_eq_splitOn, splitOnChar_eq_splitOn, splitOnChar_eq_splitOn, List.splitOn_append_cons_self]

theorem splitOnChar_ne_nil (c : UInt8) (s : Str) : splitOnChar c s ≠ [] := by
  rw [splitOnChar_eq_splitOn]
  exact List.splitOn_ne_nil c s

theorem splitOnChar_eq_singleton {c : UInt8} {s : Str} (h : c ∉ s) : splitOnChar c s = [s] := by
  rw [splitOnChar_eq_splitOn, List.splitOn_eq_singleton h]

/-- One segment more than there are separators. -/
theorem length_splitOnChar (c : UInt8) (s : Str) : (splitOnChar c s).length = s.count c + 1 := by
  induction s with
  | nil => rfl
  | cons x xs ih =>
    rw [splitOnChar]
    by_cases hx : x = c
    · simp [hx, ih]
    · rcases hsplit : splitOnChar c xs with _ | ⟨p, ps⟩
      · exact absurd hsplit (splitOnChar_ne_nil c xs)
      · rw [hsplit] at ih
        simpa [hx, List.count_cons] using ih

theorem splitOnChar_intercalate {c : UInt8} {segs : List Str} (hsegs : ∀ seg ∈ segs, c ∉ seg) (hne : segs ≠ []) :
    splitOnChar c ([c].intercalate segs) = segs := by
  rw [splitOnChar_eq_splitOn, List.splitOn_intercalate c hsegs hne]

/-- The bytes of the segments are those of the string, without the separators. -/
theorem forall_mem_splitOnChar {c : UInt8} {q : UInt8 → Prop} {s : Str} :
    (∀ seg ∈ splitOnChar c s, ∀ x ∈ seg, q x) ↔ ∀ x ∈ s, x ≠ c → q x := by
  induction s with
  | nil => simp [splitOnChar]
  | cons x xs ih =>
    rw [splitOnChar, List.forall_mem_cons, ← ih]
    by_cases hx : x = c
    · simp [hx]
    · rcases hsplit : splitOnChar c xs with _ | ⟨p, ps⟩
      · exact absurd hsplit (splitOnChar_ne_nil c xs)
      · simp only [if_neg hx, List.forall_mem_cons]
        constructor
        · rintro ⟨⟨hqx, hp⟩, hps⟩
          exact ⟨fun _ => hqx, hp, hps⟩
        · rintro ⟨hqx, hp, hps⟩
          exact ⟨⟨hqx hx, hp⟩, hps⟩

/-- The first segment is empty where the string is, or starts with a separator. -/
theorem head?_splitOnChar_eq_nil {c : UInt8} {s : Str} :
    (splitOnChar c s).head? = some [] ↔ s = [] ∨ s.head? = some c := by
  cases s with
  | nil => simp [splitOnChar]
  | cons x xs =>
    rw [splitOnChar]
    by_cases hx : x = c
    · simp [hx]
    · rcases splitOnChar c xs with _ | ⟨p, ps⟩ <;> simp [hx]

/-- Text without separators is appended to the last segment. -/
theorem splitOnChar_append_last {c : UInt8} {t : Str} (ht : c ∉ t) (s : Str) :
    ∃ segs last, splitOnChar c s = segs ++ [last] ∧ splitOnChar c (s ++ t) = segs ++ [last ++ t] := by
  induction s with
  | nil => exact ⟨[], [], rfl, splitOnChar_eq_singleton ht⟩
  | cons x xs ih =>
    obtain ⟨segs, last, hs, hst⟩ := ih
    rw [List.cons_append, splitOnChar, splitOnChar, hs, hst]
    by_cases hx : x = c
    · exact ⟨[] :: segs, last, by simp [hx], by simp [hx]⟩
    · cases segs with
      | nil => exact ⟨[], x :: last, by simp [hx], by simp [hx]⟩
      | cons p segs => exact ⟨(x :: p) :: segs, last, by simp [hx], by simp [hx]⟩

end OCaml

/-! ## Relative paths -/

namespace Paths

section
variable {α : Type} [DecidableEq α] (dot up : α)

/-- An ordinary segment. -/
def IsName (x : α) : Prop := x ≠ dot ∧ x ≠ up

instance (x : α) : Decidable (IsName dot up x) := inferInstanceAs (Decidable (_ ∧ _))

/-- Some prefix has more steps up than `n` and its names. -/
def Climbs (n : Nat) (l : List α) : Prop :=
  ∃ l', l' <+: l ∧ n + l'.countP (fun x => decide (IsName dot up x)) < l'.count up

open scoped Classical in
/-- The names that are not cancelled: what follows them does not climb over them. -/
noncomputable def remaining : List α → List α
  | [] => []
  | x :: rest => if IsName dot up x ∧ ¬ Climbs dot up 0 rest then x :: remaining rest else remaining rest

variable {dot up}

theorem climbs_nil (n : Nat) : ¬ Climbs dot up n [] := by
  rintro ⟨l', hl', hlt⟩
  obtain rfl := List.prefix_nil.1 hl'
  simp at hlt

/-- The prefixes of `x :: l` are the empty one and `x ::` those of `l`. -/
theorem climbs_cons {n : Nat} {x : α} {l : List α} : Climbs dot up n (x :: l) ↔
    ∃ l', l' <+: l ∧ n + (x :: l').countP (fun x => decide (IsName dot up x)) < (x :: l').count up := by
  constructor
  · rintro ⟨l', hl', hlt⟩
    cases l' with
    | nil => simp at hlt
    | cons y l' =>
      obtain ⟨rfl, hl''⟩ := List.cons_prefix_cons.1 hl'
      exact ⟨l', hl'', hlt⟩
  · rintro ⟨l', hl', hlt⟩
    exact ⟨x :: l', List.cons_prefix_cons.2 ⟨rfl, hl'⟩, hlt⟩

theorem climbs_dot (hne : dot ≠ up) {n : Nat} {l : List α} : Climbs dot up n (dot :: l) ↔ Climbs dot up n l := by
  rw [climbs_cons]
  simp only [Climbs, List.countP_cons, List.count_cons, IsName, ne_eq, not_true_eq_false, false_and, decide_false,
    Bool.false_eq_true, if_false, beq_eq_false_iff_ne.2 hne, Nat.add_zero]

theorem climbs_name {n : Nat} {x : α} (hx : IsName dot up x) {l : List α} :
    Climbs dot up n (x :: l) ↔ Climbs dot up (n + 1) l := by
  rw [climbs_cons]
  simp only [Climbs, List.countP_cons, List.count_cons, hx, decide_true, if_true, beq_eq_false_iff_ne.2 hx.2,
    Bool.false_eq_true, if_false, Nat.add_zero]
  constructor
  · rintro ⟨l', hl', hlt⟩
    exact ⟨l', hl', by omega⟩
  · rintro ⟨l', hl', hlt⟩
    exact ⟨l', hl', by omega⟩

theorem climbs_up_zero {l : List α} : Climbs dot up 0 (up :: l) :=
  ⟨[up], List.cons_prefix_cons.2 ⟨rfl, List.nil_prefix⟩, by simp [IsName]⟩

theorem climbs_up {n : Nat} {l : List α} : Climbs dot up (n + 1) (up :: l) ↔ Climbs dot up n l := by
  rw [climbs_cons]
  simp only [Climbs, List.countP_cons, List.count_cons, IsName, ne_eq, not_true_eq_false, and_false, decide_false,
    Bool.false_eq_true, if_false, beq_self_eq_true, if_true, Nat.add_zero]
  constructor
  · rintro ⟨l', hl', hlt⟩
    exact ⟨l', hl', by omega⟩
  · rintro ⟨l', hl', hlt⟩
    exact ⟨l', hl', by omega⟩

/-! ### What a walk may leave out -/

/-- Two tails that climb alike climb alike after the same names. -/
theorem climbs_append {l l' : List α} (h : ∀ n, Climbs dot up n l ↔ Climbs dot up n l') {names : List α}
    (hnames : ∀ x ∈ names, IsName dot up x) (n : Nat) :
    Climbs dot up n (names ++ l) ↔ Climbs dot up n (names ++ l') := by
  induction names generalizing n with
  | nil => exact h n
  | cons x names ih =>
    have hx := hnames x List.mem_cons_self
    rw [List.cons_append, List.cons_append, climbs_name hx, climbs_name hx]
    exact ih (fun y hy => hnames y (List.mem_cons_of_mem _ hy)) (n + 1)

theorem remaining_append {l l' : List α} (h : ∀ n, Climbs dot up n l ↔ Climbs dot up n l')
    (heq : remaining dot up l = remaining dot up l') {names : List α} (hnames : ∀ x ∈ names, IsName dot up x) :
    remaining dot up (names ++ l) = remaining dot up (names ++ l') := by
  induction names with
  | nil => exact heq
  | cons x names ih =>
    have hrest : ∀ y ∈ names, IsName dot up y := fun y hy => hnames y (List.mem_cons_of_mem _ hy)
    rw [List.cons_append, List.cons_append, remaining, remaining, ih hrest, climbs_append h hrest]

theorem not_climbs_names {names : List α} (hnames : ∀ x ∈ names, IsName dot up x) (n : Nat) :
    ¬ Climbs dot up n names := by
  induction names generalizing n with
  | nil => exact climbs_nil n
  | cons x names ih =>
    rw [climbs_name (hnames x List.mem_cons_self)]
    exact ih (fun y hy => hnames y (List.mem_cons_of_mem _ hy)) (n + 1)

/-- Names alone remain. -/
theorem remaining_names {names : List α} (hnames : ∀ x ∈ names, IsName dot up x) :
    remaining dot up names = names := by
  induction names with
  | nil => rfl
  | cons x names ih =>
    have hrest : ∀ y ∈ names, IsName dot up y := fun y hy => hnames y (List.mem_cons_of_mem _ hy)
    rw [remaining, if_pos ⟨hnames x List.mem_cons_self, not_climbs_names hrest 0⟩, ih hrest]

/-- A dot changes nothing. -/
theorem remaining_dot (hne : dot ≠ up) {names l : List α} (hnames : ∀ x ∈ names, IsName dot up x) :
    remaining dot up (names ++ dot :: l) = remaining dot up (names ++ l) := by
  refine remaining_append (fun n => climbs_dot hne) ?_ hnames
  rw [remaining, if_neg fun h => h.1.1 rfl]

/-- A step up takes the name before it away. -/
theorem remaining_cancel {names l : List α} (hnames : ∀ x ∈ names, IsName dot up x) {x : α} (hx : IsName dot up x) :
    remaining dot up (names ++ x :: up :: l) = remaining dot up (names ++ l) := by
  refine remaining_append (fun n => ?_) ?_ hnames
  · rw [climbs_name hx, climbs_up]
  · rw [remaining, if_neg fun h => h.2 climbs_up_zero, remaining, if_neg fun h => h.1.2 rfl]

/-- As many steps up as there are names before them lead back to the start. -/
theorem climbs_back (n m : Nat) (l : List α) :
    Climbs dot up (n + m) (List.replicate n up ++ l) ↔ Climbs dot up m l := by
  induction n with
  | zero => simp
  | succ n ih => rw [List.replicate_succ, List.cons_append, Nat.succ_add, climbs_up, ih]

theorem remaining_back {names l : List α} (hnames : ∀ x ∈ names, IsName dot up x) :
    remaining dot up (names ++ (List.replicate names.length up ++ l)) = remaining dot up l := by
  induction names using List.reverseRecOn with
  | nil => rfl
  | append_singleton names x ih =>
    have hinit : ∀ y ∈ names, IsName dot up y := fun y hy => hnames y (List.mem_append_left _ hy)
    have hx : IsName dot up x := hnames x (List.mem_append_right _ List.mem_cons_self)
    rw [List.length_append, List.length_singleton, List.replicate_succ, List.append_assoc, List.singleton_append,
      List.cons_append, remaining_cancel hinit hx, ih hinit]

end
end Paths
