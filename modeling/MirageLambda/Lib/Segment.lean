import MirageLambda.Lib.Outcome
import Mathlib.Data.List.GetD

/-!
# Segments of a buffer

`SegAt s off x`: the buffer `s` holds exactly `x` from offset `off` on. A parser that walks an offset
through a buffer accepts what a chain of such facts describes, and `segAt_append` glues neighbouring
segments together without gap or overlap.

* `segAt_append` — two segments back to back are one;
* `SegAt.eq_of_length` — a segment is determined by its length;
* `segAt_zero_of_length` — a segment at 0 of full length is the buffer;
* `sub_eq_ok` — `String.sub` succeeds with `x` exactly when `x` is there.
-/

namespace OCaml

variable {α : Type}

def SegAt (s : List α) (off : Nat) (x : List α) : Prop :=
  off + x.length ≤ s.length ∧ (s.drop off).take x.length = x

theorem SegAt.le {s x : List α} {off : Nat} (h : SegAt s off x) : off + x.length ≤ s.length := h.1

@[simp] theorem segAt_nil {s : List α} {off : Nat} : SegAt s off [] ↔ off ≤ s.length := by
  simp [SegAt]

theorem segAt_append {s x y : List α} {off : Nat} :
    SegAt s off (x ++ y) ↔ SegAt s off x ∧ SegAt s (off + x.length) y := by
  unfold SegAt
  have hcut : (s.drop off).take (x.length + y.length) =
      (s.drop off).take x.length ++ (s.drop (off + x.length)).take y.length := by
    rw [List.take_add, List.drop_drop]
  rw [List.length_append, hcut]
  constructor
  · rintro ⟨hle, heq⟩
    have hlen : ((s.drop off).take x.length).length = x.length := by
      rw [List.length_take, List.length_drop]
      omega
    obtain ⟨h1, h2⟩ := List.append_inj heq hlen
    exact ⟨⟨by omega, h1⟩, by omega, h2⟩
  · rintro ⟨⟨_, h1⟩, h2, h3⟩
    exact ⟨by omega, by rw [h1, h3]⟩

theorem SegAt.eq_of_length {s x y : List α} {off : Nat} (hx : SegAt s off x) (hy : SegAt s off y)
    (h : x.length = y.length) : x = y := by
  rw [← hx.2, ← hy.2, h]

theorem segAt_zero_of_length {s x : List α} (h : x.length = s.length) : SegAt s 0 x ↔ x = s := by
  unfold SegAt
  rw [List.drop_zero, h, List.take_of_length_le (le_refl _)]
  constructor
  · rintro ⟨_, e⟩
    exact e.symm
  · rintro rfl
    exact ⟨by omega, rfl⟩

theorem segAt_self (s : List α) : SegAt s 0 s := (segAt_zero_of_length rfl).2 rfl

/-- What lies at the start of a buffer does not depend on what follows. -/
theorem segAt_of_append {x y : List α} : SegAt (x ++ y) 0 x :=
  (segAt_append.1 (segAt_self (x ++ y))).1

/-- `String.sub s off len` for an offset and a length that are not negative. -/
theorem sub_eq_ok {ε : Type} {s x : Str} {off len : Nat} :
    (sub s off len : Outcome ε Str) = .ok x ↔ x.length = len ∧ SegAt s off x := by
  unfold sub SegAt
  split
  · rename_i h
    have hle : off + len ≤ s.length := by omega
    simp only [Outcome.ok.injEq, Int.toNat_natCast]
    constructor
    · rintro rfl
      have hlen : ((s.drop off).take len).length = len := by
        rw [List.length_take, List.length_drop]
        omega
      exact ⟨hlen, by omega, by rw [hlen]⟩
    · rintro ⟨rfl, _, e⟩
      exact e
  · rename_i h
    refine iff_of_false nofun ?_
    rintro ⟨rfl, hle, _⟩
    exact h ⟨by omega, by omega, by omega⟩

theorem sub_raises {ε : Type} {s : Str} {off len : Nat} :
    (sub s off len : Outcome ε Str).Raises ↔ s.length < off + len := by
  unfold sub
  split
  · rename_i h
    refine iff_of_false (Outcome.raises_ok _) ?_
    omega
  · rename_i h
    refine iff_of_true ⟨_, rfl⟩ ?_
    omega

/-- The bytes of a segment, one by one. -/
theorem SegAt.byteAt {s x : Str} {off i : Nat} (h : SegAt s off x) (hi : i < x.length) :
    OCaml.byteAt s (off + i) = OCaml.byteAt x i := by
  have hle := h.1
  have hx : x[i]? = (s.drop off)[i]? := by
    conv_lhs => rw [← h.2]
    rw [List.getElem?_take_of_lt hi]
  unfold OCaml.byteAt
  rw [List.getD_eq_getElem?_getD, List.getD_eq_getElem?_getD, hx, List.getElem?_drop]

/-- A segment of known length is there when its bytes are. -/
theorem segAt_iff_byteAt {s x : Str} {off : Nat} :
    SegAt s off x ↔ off + x.length ≤ s.length ∧ ∀ i < x.length, byteAt s (off + i) = byteAt x i := by
  constructor
  · intro h
    exact ⟨h.1, fun i hi => h.byteAt hi⟩
  · rintro ⟨hle, hb⟩
    refine ⟨hle, List.ext_getElem ?_ ?_⟩
    · rw [List.length_take, List.length_drop]
      omega
    · intro i h1 h2
      have hlt : off + i < s.length := by omega
      have := hb i h2
      unfold byteAt at this
      rw [List.getD_eq_getElem _ _ hlt, List.getD_eq_getElem _ _ h2] at this
      rw [List.getElem_take, List.getElem_drop, this]

end OCaml
