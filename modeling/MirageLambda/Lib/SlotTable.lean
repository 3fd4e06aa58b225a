import Mathlib.Logic.Function.Basic
import Mathlib.Data.Nat.Basic

/-!
# Slot tables with generations

A table of reusable slots where a slot's generation grows with each use and a key names a slot
together with the generation it was handed out for. Generations are natural numbers here: what a
fixed width does to them is the business of the code that packs keys into machine integers.

* `get_put` — the key of a new occupant resolves to it;
* `not_issued_succ` — and was never handed out before;
* `Dead.step` — a key that has stopped resolving never resolves again;
* `get_put_of_some`, `get_free_of_ne` — a key keeps resolving until its own slot is freed;
* `cell_put`, `cell_free` — who occupies the slots after an operation.
-/

/-- Slots `ι`, each with its occupant (if any) and its generation. -/
@[ext] structure SlotTable (ι ρ : Type) where
  cell : ι → Option ρ
  gen : ι → Nat

namespace SlotTable

variable {ι ρ : Type}

/-- The occupant of slot `k.1`, if it is still the one of generation `k.2`. -/
def get (t : SlotTable ι ρ) (k : ι × Nat) : Option ρ := if t.gen k.1 = k.2 then t.cell k.1 else none

theorem cell_of_get {t : SlotTable ι ρ} {k : ι × Nat} {q : ρ} (h : t.get k = some q) : t.cell k.1 = some q := by
  unfold get at h
  split at h
  · exact h
  · cases h

/-- The keys handed out so far. -/
def Issued (t : SlotTable ι ρ) (k : ι × Nat) : Prop := 1 ≤ k.2 ∧ k.2 ≤ t.gen k.1

/-- A key whose slot has been freed, or reused. -/
def Dead (t : SlotTable ι ρ) (k : ι × Nat) : Prop :=
  k.2 < t.gen k.1 ∨ k.2 = t.gen k.1 ∧ t.cell k.1 = none

theorem not_issued_succ (t : SlotTable ι ρ) (i : ι) : ¬ t.Issued (i, t.gen i + 1) := by
  simp [Issued]

theorem Dead.get_eq_none {t : SlotTable ι ρ} {k : ι × Nat} (hk : t.Dead k) : t.get k = none := by
  unfold get
  rcases hk with hlt | ⟨_, hcell⟩
  · rw [if_neg (by omega)]
  · split
    · exact hcell
    · rfl

/-- A key that was handed out resolves or is dead. -/
theorem Issued.dead_of_get_eq_none {t : SlotTable ι ρ} {k : ι × Nat} (hk : t.Issued k)
    (hget : t.get k = none) : t.Dead k := by
  unfold get at hget
  rcases Nat.lt_or_ge k.2 (t.gen k.1) with hlt | hge
  · exact Or.inl hlt
  · have heq : k.2 = t.gen k.1 := le_antisymm hk.2 hge
    rw [if_pos heq.symm] at hget
    exact Or.inr ⟨heq, hget⟩

section Operations

variable [DecidableEq ι]

/-- Put `q` into slot `i` under a new generation. -/
def put (t : SlotTable ι ρ) (i : ι) (q : ρ) : SlotTable ι ρ :=
  { cell := Function.update t.cell i (some q), gen := Function.update t.gen i (t.gen i + 1) }

/-- Empty slot `i`; the generation stays until the next `put`. -/
def free (t : SlotTable ι ρ) (i : ι) : SlotTable ι ρ := { t with cell := Function.update t.cell i none }

theorem cell_put {t : SlotTable ι ρ} {i j : ι} {q r : ρ} :
    (t.put i q).cell j = some r ↔ j = i ∧ r = q ∨ j ≠ i ∧ t.cell j = some r := by
  by_cases hji : j = i
  · subst hji
    simp [put, eq_comm]
  · simp [put, hji]

theorem cell_free {t : SlotTable ι ρ} {i j : ι} {r : ρ} :
    (t.free i).cell j = some r ↔ j ≠ i ∧ t.cell j = some r := by
  by_cases hji : j = i
  · subst hji
    simp [free]
  · simp [free, hji]

/-- One operation on the table; a `put` needs an empty slot. -/
inductive Step (t : SlotTable ι ρ) : SlotTable ι ρ → Prop where
  | idle : Step t t
  | put (i : ι) (q : ρ) : t.cell i = none → Step t (t.put i q)
  | free (i : ι) : Step t (t.free i)

theorem get_put (t : SlotTable ι ρ) (i : ι) (q : ρ) : (t.put i q).get (i, t.gen i + 1) = some q := by
  simp [get, put]

theorem issued_put (t : SlotTable ι ρ) (i : ι) (q : ρ) : (t.put i q).Issued (i, t.gen i + 1) := by
  simp [Issued, put]

theorem gen_mono {t t' : SlotTable ι ρ} (h : Step t t') (i : ι) : t.gen i ≤ t'.gen i := by
  cases h with
  | idle => exact le_refl _
  | put j q hj =>
    by_cases hij : i = j
    · subst hij
      simp [put]
    · simp [put, hij]
  | free j => exact le_refl _

theorem Issued.step {t t' : SlotTable ι ρ} {k : ι × Nat} (hk : t.Issued k) (h : Step t t') : t'.Issued k :=
  ⟨hk.1, le_trans hk.2 (gen_mono h k.1)⟩

/-- Dead keys stay dead. -/
theorem Dead.step {t t' : SlotTable ι ρ} {k : ι × Nat} (hk : t.Dead k) (h : Step t t') : t'.Dead k := by
  cases h with
  | idle => exact hk
  | put i q hi =>
    by_cases hki : k.1 = i
    · -- the slot is taken again: its generation has moved past `k.2`
      subst hki
      left
      simp only [put, Function.update_self]
      rcases hk with hlt | ⟨heq, _⟩
      · omega
      · omega
    · simpa [Dead, put, hki] using hk
  | free i =>
    rcases hk with hlt | ⟨heq, hcell⟩
    · exact Or.inl hlt
    · refine Or.inr ⟨heq, ?_⟩
      by_cases hki : k.1 = i
      · subst hki
        simp [free]
      · simpa [free, hki] using hcell

theorem dead_free {t : SlotTable ι ρ} {k : ι × Nat} (hk : t.Issued k) : (t.free k.1).Dead k := by
  rcases Nat.lt_or_ge k.2 (t.gen k.1) with hlt | hge
  · exact Or.inl hlt
  · exact Or.inr ⟨le_antisymm hk.2 hge, by simp [free]⟩

/-- An occupied slot keeps its key: a `put` goes elsewhere. -/
theorem get_put_of_some {t : SlotTable ι ρ} {i : ι} {k : ι × Nat} {q r : ρ} (hi : t.cell i = none)
    (hget : t.get k = some r) : (t.put i q).get k = some r := by
  have hne : k.1 ≠ i := by
    rintro rfl
    have hcell := cell_of_get hget
    rw [hi] at hcell
    cases hcell
  simpa [get, put, hne] using hget

theorem get_free_of_ne {t : SlotTable ι ρ} {i : ι} {k : ι × Nat} (hne : k.1 ≠ i) :
    (t.free i).get k = t.get k := by
  simp [get, free, hne]

end Operations
end SlotTable
