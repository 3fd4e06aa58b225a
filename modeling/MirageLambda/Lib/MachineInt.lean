import Mathlib.Algebra.Order.Ring.Int
import Mathlib.Tactic.Ring

/-!
# Integers of a fixed width

OCaml's `int` has 63 bits, `int32` 32: an operation returns the representative of its exact result in
`-2^(w-1) … 2^(w-1) - 1`. `wrap w` is that representative, `Fits w` says that nothing was lost.

A C conversion to `uint64_t` is `UInt64.ofInt`.
-/

namespace OCaml

/-- The value is one of the `w`-bit integers. -/
def Fits (w : Nat) (n : Int) : Prop := -2 ^ (w - 1) ≤ n ∧ n < 2 ^ (w - 1)

instance (w : Nat) (n : Int) : Decidable (Fits w n) := inferInstanceAs (Decidable (_ ∧ _))

/-- The `w`-bit integers; `int` is `IntN 63`. -/
abbrev IntN (w : Nat) : Type := { n : Int // Fits w n }

/-- What is left of an exact result in `w` bits. -/
def wrap (w : Nat) (n : Int) : Int := n.bmod (2 ^ w)

variable {w : Nat} {n : Int}

theorem two_pow_eq (hw : 0 < w) : (2 : Int) ^ w = 2 * 2 ^ (w - 1) := by
  obtain ⟨v, rfl⟩ : ∃ v, w = v + 1 := ⟨w - 1, by omega⟩
  rw [Nat.add_sub_cancel, pow_succ]
  ring

theorem fits_wrap (hw : 0 < w) (n : Int) : Fits w (wrap w n) := by
  have hpos : 0 < 2 ^ w := Nat.two_pow_pos w
  have hle := Int.le_bmod (x := n) hpos
  have hlt := Int.bmod_lt (x := n) hpos
  have hpow := two_pow_eq hw
  push_cast at hle hlt
  rw [hpow] at hle hlt
  unfold Fits wrap
  constructor <;> omega

/-- Nothing is lost exactly when the result is a `w`-bit integer. -/
theorem wrap_eq_self_iff (hw : 0 < w) : wrap w n = n ↔ Fits w n := by
  constructor
  · intro h
    rw [← h]
    exact fits_wrap hw n
  · intro h
    have hpow := two_pow_eq hw
    apply Int.bmod_eq_of_le
    · push_cast
      rw [hpow]
      have := h.1
      omega
    · push_cast
      rw [hpow]
      have := h.2
      omega

theorem Fits.wrap_eq [NeZero w] (h : Fits w n) : wrap w n = n := (wrap_eq_self_iff (NeZero.pos w)).2 h

/-- A result above the range comes back `2^w` lower. -/
theorem wrap_of_overflow (hw : 0 < w) (hge : 2 ^ (w - 1) ≤ n) (hlt : n < 2 ^ w) : wrap w n = n - 2 ^ w := by
  have hpow := two_pow_eq hw
  have hshift : wrap w n = wrap w (n - 2 ^ w) := by
    have h := Int.sub_bmod_right n (2 ^ w)
    push_cast at h
    exact h.symm
  rw [hshift, wrap_eq_self_iff hw]
  constructor <;> omega

/-- A sum of two non-negative numbers that overflows comes back negative. -/
theorem fits_add_of_wrap_nonneg (hw : 0 < w) {m : Int} (hm : 0 ≤ m ∧ Fits w m) (hn : 0 ≤ n ∧ Fits w n)
    (h : 0 ≤ wrap w (m + n)) : Fits w (m + n) := by
  have hpow := two_pow_eq hw
  have hm2 := hm.2.2
  have hn2 := hn.2.2
  by_contra hover
  have hge : 2 ^ (w - 1) ≤ m + n := by
    unfold Fits at hover
    omega
  have hlt : m + n < 2 ^ w := by omega
  rw [wrap_of_overflow hw hge hlt] at h
  omega

theorem exists_eq_wrap_add (w : Nat) (n : Int) : ∃ k, n = wrap w n + 2 ^ w * k := by
  obtain ⟨k, hk⟩ : ((2 ^ w : Nat) : Int) ∣ n - wrap w n := Int.dvd_self_sub_bmod
  push_cast at hk
  exact ⟨k, by omega⟩

/-- What is left is zero exactly when the lower bits are. -/
theorem wrap_eq_zero_iff : wrap w n = 0 ↔ 2 ^ w ∣ n := by
  have h := Int.dvd_iff_bmod_eq_zero (a := 2 ^ w) (b := n)
  push_cast at h
  exact h.symm

theorem toNat_ofInt (n : Int) : ((UInt64.ofInt n).toNat : Int) = n % 2 ^ 64 := by
  have hnonneg : 0 ≤ n % 2 ^ 64 := Int.emod_nonneg n (by decide)
  have hlt : n % 2 ^ 64 < 2 ^ 64 := Int.emod_lt_of_pos n (by decide)
  have hbound : (n % 2 ^ 64).toNat < UInt64.size := (Int.toNat_lt hnonneg).2 hlt
  rw [UInt64.ofInt, UInt64.toNat_ofNat_of_lt' hbound, Int.toNat_of_nonneg hnonneg]

end OCaml
