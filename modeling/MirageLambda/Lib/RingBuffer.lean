import Mathlib.Data.Fin.Basic
import Mathlib.Data.Fin.SuccPred
import Mathlib.Logic.Function.Basic
import Mathlib.Algebra.Group.Fin.Basic
import Mathlib.Data.List.Basic
import Mathlib.Data.List.FinRange
import Mathlib.Data.List.Perm.Basic

/-!
# Ring buffers

A fixed array of `n` slots with a head, a tail and a count, used as a bounded queue. `contents` reads
it as a list, oldest first; `WF` says that the tail is where the contents end.

* `contents_push` — pushing appends;
* `contents_pop` — popping takes the first element;
* `drain_eq` — popping as long as there is something returns the contents in order;
* `filterMap_slots_perm` — where the slots outside the contents hold nothing, a pass over all slots finds what
  the contents hold, once each.
-/

/-- `n + 1` slots, so that indices wrap. -/
structure RingBuffer (n : Nat) (α : Type) where
  slots : Fin (n + 1) → α
  head : Fin (n + 1)
  tail : Fin (n + 1)
  count : Nat

namespace RingBuffer

variable {n : Nat} {α : Type}

/-- The elements from the head on. -/
def contents (r : RingBuffer n α) : List α := (List.range r.count).map fun k => r.slots (r.head + Fin.ofNat (n + 1) k)

structure WF (r : RingBuffer n α) : Prop where
  count_le : r.count ≤ n + 1
  tail_eq : r.tail = r.head + Fin.ofNat (n + 1) r.count

/-- Nothing in it, and `x` in every slot. -/
def blank (x : α) : RingBuffer n α := { slots := fun _ => x, head := 0, tail := 0, count := 0 }

/-- Append at the tail, unless the ring is full. -/
def push (r : RingBuffer n α) (x : α) : Option (RingBuffer n α) :=
  if r.count ≥ n + 1 then none
  else some { slots := Function.update r.slots r.tail x, head := r.head, tail := r.tail + 1, count := r.count + 1 }

/-- Take the element at the head; `clear` is what stays behind in its slot. -/
def pop (clear : α → α) (r : RingBuffer n α) : Option (α × RingBuffer n α) :=
  if r.count = 0 then none
  else
    let x := r.slots r.head
    some (x, { slots := Function.update r.slots r.head (clear x), head := r.head + 1, tail := r.tail, count := r.count - 1 })

/-- Pop up to `k` elements. -/
def drain (clear : α → α) : Nat → RingBuffer n α → List α × RingBuffer n α
  | 0, r => ([], r)
  | k + 1, r => match pop clear r with
    | none => ([], r)
    | some (x, r') => let (xs, r'') := drain clear k r'; (x :: xs, r'')

@[simp] theorem length_contents (r : RingBuffer n α) : r.contents.length = r.count := by simp [contents]

theorem ofNat_succ (k : Nat) : Fin.ofNat (n + 1) (k + 1) = Fin.ofNat (n + 1) k + 1 := by
  apply Fin.ext
  simp [Fin.ofNat, Fin.val_add]

/-- Offsets below the capacity name different slots. -/
theorem head_add_inj {h : Fin (n + 1)} {j k : Nat} (hj : j < n + 1) (hk : k < n + 1)
    (heq : h + Fin.ofNat (n + 1) j = h + Fin.ofNat (n + 1) k) : j = k := by
  have := congrArg Fin.val (add_left_cancel heq)
  simpa [Fin.ofNat, Nat.mod_eq_of_lt hj, Nat.mod_eq_of_lt hk] using this

theorem wf_blank (x : α) : (blank x : RingBuffer n α).WF := ⟨Nat.zero_le _, by simp [blank, Fin.ofNat]⟩

@[simp] theorem contents_blank (x : α) : (blank x : RingBuffer n α).contents = [] := rfl

theorem push_eq_none {r : RingBuffer n α} {x : α} : r.push x = none ↔ n + 1 ≤ r.count := by
  unfold push
  split <;> simp_all

theorem WF.push {r r' : RingBuffer n α} {x : α} (hwf : r.WF) (h : r.push x = some r') : r'.WF := by
  unfold RingBuffer.push at h
  split at h
  · cases h
  · cases h
    refine ⟨by simp only; omega, ?_⟩
    simp only
    rw [hwf.tail_eq, ofNat_succ, add_assoc]

theorem contents_push {r r' : RingBuffer n α} {x : α} (hwf : r.WF) (h : r.push x = some r') :
    r'.contents = r.contents ++ [x] := by
  unfold RingBuffer.push at h
  split at h
  · cases h
  · rename_i hlt
    cases h
    unfold contents
    simp only
    rw [List.range_succ, List.map_append, List.map_singleton, ← hwf.tail_eq, Function.update_self]
    congr 1
    refine List.map_congr_left fun k hk => ?_
    have hk' := List.mem_range.1 hk
    rw [Function.update_of_ne]
    rw [hwf.tail_eq]
    intro heq
    have := head_add_inj (by omega) (by omega) heq
    omega

theorem WF.pop {clear : α → α} {r r' : RingBuffer n α} {x : α} (hwf : r.WF) (h : pop clear r = some (x, r')) :
    r'.WF := by
  unfold RingBuffer.pop at h
  split at h
  · cases h
  · rename_i hne
    cases h
    obtain ⟨m, hm⟩ := Nat.exists_eq_succ_of_ne_zero hne
    have hle := hwf.count_le
    refine ⟨by simp only; omega, ?_⟩
    simp only
    rw [hwf.tail_eq, hm, Nat.succ_sub_one, ofNat_succ, add_right_comm, add_assoc]

theorem contents_pop {clear : α → α} {r r' : RingBuffer n α} {x : α} (hwf : r.WF) (h : pop clear r = some (x, r')) :
    r.contents = x :: r'.contents := by
  unfold RingBuffer.pop at h
  split at h
  · cases h
  · rename_i hne
    cases h
    obtain ⟨m, hm⟩ := Nat.exists_eq_succ_of_ne_zero hne
    have hle := hwf.count_le
    unfold contents
    simp only
    rw [hm, Nat.succ_sub_one, List.range_succ_eq_map, List.map_cons, List.map_map]
    congr 1
    · simp [Fin.ofNat]
    · refine List.map_congr_left fun k hk => ?_
      have hk' := List.mem_range.1 hk
      have hidx : r.head + Fin.ofNat (n + 1) (k + 1) = r.head + 1 + Fin.ofNat (n + 1) k := by
        rw [ofNat_succ, add_right_comm, add_assoc]
      simp only [Function.comp_apply, Nat.succ_eq_add_one]
      rw [← hidx, Function.update_of_ne]
      intro heq
      have hz : r.head + Fin.ofNat (n + 1) (k + 1) = r.head + Fin.ofNat (n + 1) 0 := by
        rw [heq]
        simp [Fin.ofNat]
      have := head_add_inj (by omega) (by omega) hz
      omega

theorem pop_eq_none {clear : α → α} {r : RingBuffer n α} : pop clear r = none ↔ r.count = 0 := by
  unfold pop
  split <;> simp_all

/-- **Draining returns the contents in order and leaves the ring empty.** -/
theorem drain_eq (clear : α → α) {r : RingBuffer n α} (hwf : r.WF) :
    (drain clear r.count r).1 = r.contents ∧ (drain clear r.count r).2.count = 0 ∧
      (drain clear r.count r).2.WF := by
  generalize hk : r.count = k
  induction k generalizing r with
  | zero =>
    refine ⟨?_, hk, hwf⟩
    simp [drain, contents, hk]
  | succ k ih =>
    cases hp : pop clear r with
    | none =>
      rw [pop_eq_none] at hp
      omega
    | some p =>
      obtain ⟨x, r'⟩ := p
      have hcount : r'.count = k := by
        have := congrArg List.length (contents_pop hwf hp)
        simp only [length_contents, List.length_cons] at this
        omega
      obtain ⟨h1, h2, h3⟩ := ih (hwf.pop hp) hcount
      simp only [drain, hp, h1, contents_pop hwf hp]
      exact ⟨trivial, h2, h3⟩

/-! ### The slots outside the contents -/

/-- The slot holds one of the elements. -/
def Live (r : RingBuffer n α) (i : Fin (n + 1)) : Prop := ∃ k < r.count, i = r.head + Fin.ofNat (n + 1) k

/-- Every other slot satisfies `p`. -/
def Vacant (p : α → Prop) (r : RingBuffer n α) : Prop := ∀ i, ¬ r.Live i → p (r.slots i)

theorem live_push {r r' : RingBuffer n α} {x : α} (hwf : r.WF) (h : r.push x = some r') (i : Fin (n + 1)) :
    r'.Live i ↔ r.Live i ∨ i = r.tail := by
  unfold RingBuffer.push at h
  split at h
  · cases h
  · cases h
    rw [hwf.tail_eq]
    constructor
    · rintro ⟨k, hk, rfl⟩
      rcases Nat.lt_succ_iff_lt_or_eq.1 hk with hlt | rfl
      · exact Or.inl ⟨k, hlt, rfl⟩
      · exact Or.inr rfl
    · rintro (⟨k, hk, rfl⟩ | rfl)
      · exact ⟨k, Nat.lt_succ_of_lt hk, rfl⟩
      · exact ⟨r.count, Nat.lt_succ_self _, rfl⟩

theorem live_pop {clear : α → α} {r r' : RingBuffer n α} {x : α} (h : pop clear r = some (x, r'))
    (i : Fin (n + 1)) : r.Live i ↔ i = r.head ∨ r'.Live i := by
  unfold RingBuffer.pop at h
  split at h
  · cases h
  · rename_i hne
    cases h
    have hnext : ∀ k, r.head + Fin.ofNat (n + 1) (k + 1) = r.head + 1 + Fin.ofNat (n + 1) k := by
      intro k
      rw [ofNat_succ, add_right_comm, add_assoc]
    constructor
    · rintro ⟨k, hk, rfl⟩
      cases k with
      | zero => exact Or.inl (by simp [Fin.ofNat])
      | succ k => exact Or.inr ⟨k, by simp only []; omega, hnext k⟩
    · rintro (rfl | ⟨k, hk, rfl⟩)
      · exact ⟨0, by omega, by simp [Fin.ofNat]⟩
      · simp only [] at hk
        exact ⟨k + 1, by omega, (hnext k).symm⟩

theorem Vacant.push {p : α → Prop} {r r' : RingBuffer n α} {x : α} (hv : r.Vacant p) (hwf : r.WF)
    (h : r.push x = some r') : r'.Vacant p := by
  intro i hi
  rw [live_push hwf h, not_or] at hi
  unfold RingBuffer.push at h
  split at h
  · cases h
  · cases h
    simp only []
    rw [Function.update_of_ne hi.2]
    exact hv i hi.1

theorem Vacant.pop {p : α → Prop} {clear : α → α} (hclear : ∀ x, p (clear x)) {r r' : RingBuffer n α} {x : α}
    (hv : r.Vacant p) (h : pop clear r = some (x, r')) : r'.Vacant p := by
  intro i hi
  have hlive := live_pop h i
  unfold RingBuffer.pop at h
  split at h
  · cases h
  · cases h
    simp only []
    by_cases hhead : i = r.head
    · rw [hhead, Function.update_self]
      exact hclear _
    · rw [Function.update_of_ne hhead]
      exact hv i fun hl => (hlive.1 hl).elim hhead hi

/-- **A pass over all slots finds what the contents hold, each element once.** -/
theorem filterMap_slots_perm {β : Type} {f : α → Option β} {r : RingBuffer n α} (hwf : r.WF)
    (hv : r.Vacant fun x => f x = none) :
    ((List.finRange (n + 1)).filterMap fun i => f (r.slots i)).Perm (r.contents.filterMap f) := by
  classical
  have hlive : (List.finRange (n + 1)).filterMap (fun i => f (r.slots i)) =
      ((List.finRange (n + 1)).filter fun i => decide (r.Live i)).filterMap fun i => f (r.slots i) := by
    rw [List.filterMap_filter]
    refine List.filterMap_congr fun i _ => ?_
    by_cases hi : r.Live i
    · simp [hi]
    · simp [hi, hv i hi]
  have hcontents : r.contents.filterMap f =
      ((List.range r.count).map fun k => r.head + Fin.ofNat (n + 1) k).filterMap fun i => f (r.slots i) := by
    rw [contents, List.filterMap_map, List.filterMap_map]
    rfl
  rw [hlive, hcontents]
  refine List.Perm.filterMap _ ?_
  have hcount := hwf.count_le
  refine (List.perm_ext_iff_of_nodup ((List.nodup_finRange _).filter _) ?_).2 fun i => ?_
  · refine List.Nodup.map_on (fun j hj k hk heq => ?_) List.nodup_range
    exact head_add_inj (by have := List.mem_range.1 hj; omega) (by have := List.mem_range.1 hk; omega) heq
  · simp only [List.mem_filter, List.mem_finRange, true_and, List.mem_map, List.mem_range]
    rw [decide_eq_true_iff]
    exact exists_congr fun k => and_congr_right fun _ => eq_comm

/-! ### Images -/

/-- The ring of the images. -/
def map {β : Type} (g : α → β) (r : RingBuffer n α) : RingBuffer n β :=
  { slots := fun i => g (r.slots i), head := r.head, tail := r.tail, count := r.count }

theorem contents_map {β : Type} (g : α → β) (r : RingBuffer n α) : (r.map g).contents = r.contents.map g := by
  simp [contents, map]

theorem push_map {β : Type} (g : α → β) (r : RingBuffer n α) (x : α) :
    (r.map g).push (g x) = (r.push x).map (map g) := by
  unfold push
  by_cases hfull : r.count ≥ n + 1
  · rw [if_pos hfull, if_pos (show (r.map g).count ≥ n + 1 from hfull)]
    rfl
  · rw [if_neg hfull, if_neg (show ¬ (r.map g).count ≥ n + 1 from hfull)]
    have hslots : Function.update (r.map g).slots (r.map g).tail (g x) =
        fun i => g (Function.update r.slots r.tail x i) := by
      funext i
      exact (Function.apply_update (fun _ => g) r.slots r.tail x i).symm
    rw [hslots]
    rfl

theorem pop_map {β : Type} (g : α → β) {clear : α → α} {clear' : β → β} (hclear : ∀ x, clear' (g x) = g (clear x))
    (r : RingBuffer n α) : pop clear' (r.map g) = (pop clear r).map fun p => (g p.1, p.2.map g) := by
  unfold pop
  by_cases hempty : r.count = 0
  · rw [if_pos hempty, if_pos (show (r.map g).count = 0 from hempty)]
    rfl
  · rw [if_neg hempty, if_neg (show ¬ (r.map g).count = 0 from hempty)]
    have hslots : Function.update (r.map g).slots (r.map g).head (clear' ((r.map g).slots (r.map g).head)) =
        fun i => g (Function.update r.slots r.head (clear (r.slots r.head)) i) := by
      funext i
      rw [show (r.map g).slots (r.map g).head = g (r.slots r.head) from rfl, hclear]
      exact (Function.apply_update (fun _ => g) r.slots r.head _ i).symm
    simp only [hslots]
    rfl

theorem drain_map {β : Type} (g : α → β) {clear : α → α} {clear' : β → β} (hclear : ∀ x, clear' (g x) = g (clear x))
    (k : Nat) (r : RingBuffer n α) :
    drain clear' k (r.map g) = ((drain clear k r).1.map g, (drain clear k r).2.map g) := by
  induction k generalizing r with
  | zero => rfl
  | succ k ih =>
    rw [drain, drain, pop_map g hclear r]
    cases pop clear r with
    | none => rfl
    | some p =>
      simp only [Option.map_some]
      rw [ih]
      rfl

end RingBuffer
