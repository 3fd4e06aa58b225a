import Mathlib.Data.List.Sort

/-!
# Sorting by a key

`List.sort` with a comparison of keys, as `insertionSort`. Elements with distinct keys have exactly one
sorted arrangement, whatever order they came in.
-/

namespace KeySort

variable {α κ : Type*} [Ord κ] {key : α → κ}

/-- `compare` on the keys does not answer `gt`. -/
def KeyLe (key : α → κ) (a b : α) : Prop := compare (key a) (key b) ≠ .gt

instance : DecidableRel (KeyLe key) := fun a b => inferInstanceAs (Decidable (compare (key a) (key b) ≠ .gt))

theorem keyLe_iff {a b : α} : KeyLe key a b ↔ (compare (key a) (key b)).isLE := by
  unfold KeyLe
  cases compare (key a) (key b) <;> simp

variable [Std.TransOrd κ]

instance : Std.Total (KeyLe key) where
  total a b := by
    have hswap : compare (key b) (key a) = (compare (key a) (key b)).swap := Std.OrientedOrd.eq_swap
    rw [keyLe_iff, keyLe_iff, hswap]
    cases compare (key a) (key b) <;> simp

instance : IsTrans α (KeyLe key) where
  trans _ _ _ hab hbc := keyLe_iff.2 (Std.TransCmp.isLE_trans (keyLe_iff.1 hab) (keyLe_iff.1 hbc))

variable [Std.LawfulEqOrd κ]

/-- With distinct keys the sorted list is strictly sorted. -/
theorem pairwise_insertionSort {xs : List α} (hnodup : (xs.map key).Nodup) :
    (xs.insertionSort (KeyLe key)).Pairwise fun a b => compare (key a) (key b) = .lt := by
  have hsorted := List.pairwise_insertionSort (KeyLe key) xs
  have hperm := List.perm_insertionSort (KeyLe key) xs
  have hne := (hperm.map key).nodup_iff.2 hnodup
  rw [List.Nodup, List.pairwise_map] at hne
  refine (hsorted.and hne).imp ?_
  rintro a b ⟨hle, hab⟩
  cases hc : compare (key a) (key b) with
  | lt => rfl
  | eq => exact absurd (Std.LawfulEqCmp.eq_of_compare hc) hab
  | gt => exact absurd hc hle

/-- The sorted list does not depend on the order the elements came in. -/
theorem insertionSort_eq_of_perm {xs ys : List α} (hp : xs.Perm ys) (hnodup : (xs.map key).Nodup) :
    xs.insertionSort (KeyLe key) = ys.insertionSort (KeyLe key) := by
  have hx := pairwise_insertionSort hnodup
  have hy := pairwise_insertionSort ((hp.map key).nodup_iff.1 hnodup)
  refine List.Perm.eq_of_pairwise ?_ hx hy ?_
  · -- Strictly below each other both ways is impossible.
    intro a b _ _ hab hba
    have hswap : compare (key b) (key a) = (compare (key a) (key b)).swap := Std.OrientedOrd.eq_swap
    rw [hab, hba] at hswap
    cases hswap
  · exact ((List.perm_insertionSort _ xs).trans hp).trans (List.perm_insertionSort _ ys).symm

end KeySort
