import Mathlib.Algebra.Order.BigOperators.Group.List
import Mathlib.Tactic.Linarith

/-!
# First come, first served

Things of various sizes ask for room one after the other. One that does not fit in what is left is turned away, and a
smaller one after it may still fit. `fitting` are those that are let in.
-/

namespace Packing

variable {α : Type*} (size : α → Nat)

/-- What the things take together. -/
def total (xs : List α) : Int := (xs.map fun x => (size x : Int)).sum

/-- The things that fit, each in what the ones before it have left. -/
def fitting : Int → List α → List α
  | _, [] => []
  | room, x :: xs => if (size x : Int) ≤ room then x :: fitting (room - size x) xs else fitting room xs

@[simp] theorem total_nil : total size [] = 0 := rfl

@[simp] theorem total_cons (x : α) (xs : List α) : total size (x :: xs) = size x + total size xs := by
  simp [total]

theorem total_nonneg (xs : List α) : 0 ≤ total size xs := by
  induction xs with
  | nil => exact le_refl 0
  | cons x xs ih =>
    rw [total_cons]
    omega

theorem fitting_sublist (room : Int) (xs : List α) : (fitting size room xs).Sublist xs := by
  induction xs generalizing room with
  | nil => exact List.Sublist.refl _
  | cons x xs ih =>
    rw [fitting]
    split
    · exact (ih _).cons_cons x
    · exact (ih _).cons x

/-- There is room for what is let in. -/
theorem total_fitting_le {room : Int} (h : 0 ≤ room) (xs : List α) : total size (fitting size room xs) ≤ room := by
  induction xs generalizing room with
  | nil => exact h
  | cons x xs ih =>
    rw [fitting]
    split
    · rename_i hfits
      have hrest := ih (show 0 ≤ room - size x by omega)
      rw [total_cons]
      omega
    · exact ih h

/-- All are let in exactly when there is room for all of them. -/
theorem fitting_eq_self_iff {room : Int} (h : 0 ≤ room) (xs : List α) : fitting size room xs = xs ↔ total size xs ≤ room := by
  induction xs generalizing room with
  | nil => exact iff_of_true rfl h
  | cons x xs ih =>
    have hrest := total_nonneg size xs
    rw [fitting, total_cons]
    split
    · rename_i hfits
      rw [List.cons.injEq, and_iff_right rfl, ih (by omega)]
      omega
    · refine iff_of_false (fun heq => ?_) (by omega)
      have hlen := (fitting_sublist size room xs).length_le
      rw [heq, List.length_cons] at hlen
      omega

end Packing
