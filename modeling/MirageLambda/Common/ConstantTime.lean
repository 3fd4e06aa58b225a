import MirageLambda.Common.Ids

/-!
# Constant-time comparison (common/ids.ml:130, common/bundle.ml:113)

`Digest.constant_time_equal` and `ct_eq_bytes` have the same body: a length test, then a loop that
collects the differences of all pairs of bytes in one accumulator and never leaves early. Here the
body is written with the string accesses that raise, and the loop has its invariant:

* `CtInv a b k acc`: bit `j` of `acc` is on iff one of the first `k` pairs differs in bit `j`. No
  later pair clears a bit, and no pair is left out;
* `ctLoop_eq`: under the length test no access is out of bounds, and the loop ends with
  `ctAccumulate a b`.
-/

namespace MirageLambda
open OCaml

/-- The `for` loop (ids.ml:134, bundle.ml:117) at index `i`, with `n` indices left. -/
def ctLoop {ε : Type} (a b : Str) (i acc : Nat) : Nat → Outcome ε Nat
  | 0 => pure acc
  | n + 1 => do
    let x ← get a i
    let y ← get b i
    ctLoop a b (i + 1) (acc ||| (x.toNat ^^^ y.toNat)) n

/-- The body of `constant_time_equal` (ids.ml:130) and of `ct_eq_bytes` (bundle.ml:113). -/
def ctBody {ε : Type} (a b : Str) : Outcome ε Bool :=
  if a.length ≠ b.length then pure false
  else do
    let acc ← ctLoop a b 0 0 a.length
    pure (acc == 0)

/-- **The invariant of the loop** before index `k`. -/
def CtInv (a b : Str) (k acc : Nat) : Prop :=
  ∀ j, acc.testBit j = true ↔ ∃ i < k, (byteAt a i).toNat.testBit j ≠ (byteAt b i).toNat.testBit j

variable {a b : Str} {k acc : Nat}

theorem ctInv_zero : CtInv a b 0 0 := by
  intro j
  simp

/-- One index: the bits of the new pair are added, the bits that were on stay on. -/
theorem CtInv.step (h : CtInv a b k acc) :
    CtInv a b (k + 1) (acc ||| ((byteAt a k).toNat ^^^ (byteAt b k).toNat)) := by
  intro j
  rw [Nat.testBit_or, Bool.or_eq_true, h j, Nat.testBit_xor, bne_iff_ne]
  constructor
  · rintro (⟨i, hi, hne⟩ | hne)
    · exact ⟨i, by omega, hne⟩
    · exact ⟨k, by omega, hne⟩
  · rintro ⟨i, hi, hne⟩
    by_cases hik : i = k
    · subst hik
      exact Or.inr hne
    · exact Or.inl ⟨i, by omega, hne⟩

theorem CtInv.unique {acc' : Nat} (h : CtInv a b k acc) (h' : CtInv a b k acc') : acc = acc' := by
  apply Nat.eq_of_testBit_eq
  intro j
  rw [Bool.eq_iff_iff, h j, h' j]

/-- The accumulator is 0 as long as every pair so far agrees. -/
theorem CtInv.eq_zero_iff (h : CtInv a b k acc) : acc = 0 ↔ ∀ i < k, byteAt a i = byteAt b i := by
  constructor
  · intro hacc i hi
    rw [← UInt8.toNat_inj]
    apply Nat.eq_of_testBit_eq
    intro j
    by_contra hne
    have hbit := (h j).2 ⟨i, hi, hne⟩
    rw [hacc, Nat.zero_testBit] at hbit
    cases hbit
  · intro hall
    apply Nat.eq_of_testBit_eq
    intro j
    rw [Nat.zero_testBit, ← Bool.not_eq_true, h j]
    rintro ⟨i, hi, hne⟩
    exact hne (by rw [hall i hi])

/-- The rest of the loop, from any index that leaves its reads inside both strings. -/
theorem CtInv.run {ε : Type} {n : Nat} (h : CtInv a b k acc) (ha : k + n ≤ a.length)
    (hb : k + n ≤ b.length) :
    ∃ acc', (ctLoop a b k acc n : Outcome ε Nat) = .ok acc' ∧ CtInv a b (k + n) acc' := by
  induction n generalizing k acc with
  | zero => exact ⟨acc, rfl, h⟩
  | succ n ih =>
    obtain ⟨acc', hloop, hinv⟩ := ih h.step (by omega) (by omega)
    refine ⟨acc', ?_, by rwa [show k + (n + 1) = k + 1 + n by omega]⟩
    rw [ctLoop, get_nat (by omega), get_nat (by omega)]
    exact hloop

theorem ctInv_ctAccumulate : CtInv a b a.length (ctAccumulate a b) := by
  unfold ctAccumulate
  induction a.length with
  | zero => exact ctInv_zero
  | succ n ih =>
    rw [List.range_succ, List.foldl_append]
    exact ih.step

/-- The accumulated value is 0 exactly when every pair of bytes agrees. -/
theorem ctAccumulate_eq_zero : ctAccumulate a b = 0 ↔ ∀ i < a.length, byteAt a i = byteAt b i :=
  ctInv_ctAccumulate.eq_zero_iff

theorem getElem?_eq_byteAt {s : Str} {i : Nat} (h : i < s.length) : s[i]? = some (byteAt s i) := by
  simp [byteAt, List.getElem?_eq_getElem h]

theorem constantTimeEqual_iff : constantTimeEqual a b = true ↔ a = b := by
  unfold constantTimeEqual
  by_cases hlen : a.length = b.length
  · rw [if_neg (by simpa using hlen), beq_iff_eq, ctAccumulate_eq_zero]
    refine ⟨fun hall => List.ext_getElem? fun i => ?_, fun e => by simp [e]⟩
    by_cases hi : i < a.length
    · rw [getElem?_eq_byteAt hi, getElem?_eq_byteAt (hlen ▸ hi), hall i hi]
    · rw [List.getElem?_eq_none (by omega), List.getElem?_eq_none (by omega)]
  · rw [if_pos hlen]
    exact ⟨nofun, fun e => absurd (congrArg List.length e) hlen⟩

/-- With equal lengths every access is in bounds, and the loop computes `ctAccumulate`. -/
theorem ctLoop_eq {ε : Type} (h : a.length = b.length) :
    (ctLoop a b 0 0 a.length : Outcome ε Nat) = .ok (ctAccumulate a b) := by
  obtain ⟨acc, hloop, hinv⟩ : ∃ acc, (ctLoop a b 0 0 a.length : Outcome ε Nat) = .ok acc ∧
      CtInv a b (0 + a.length) acc := ctInv_zero.run (by omega) (by omega)
  rw [Nat.zero_add] at hinv
  rw [hloop, hinv.unique ctInv_ctAccumulate]

/-- **The body returns, and what it returns is `constantTimeEqual`.** -/
theorem ctBody_eq {ε : Type} : (ctBody a b : Outcome ε Bool) = .ok (constantTimeEqual a b) := by
  unfold ctBody constantTimeEqual
  by_cases h : a.length = b.length
  · rw [if_neg (by simpa using h), if_neg (by simpa using h), ctLoop_eq h]
    rfl
  · rw [if_pos h, if_pos h]
    rfl

end MirageLambda
