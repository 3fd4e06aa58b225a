import MirageLambda.Lib.Run
import MirageLambda.Common.BoundedBytes

/-!
# Programs over bounded strings (common/bounded_bytes.ml)

A program builds bounded strings one after the other; an operation names its operands by their position among
the strings built so far. `Kept` is what each operation promises (bounded_bytes.mli:1-28): it returns, what it
builds respects its bound, `append` gives the whole concatenation or refuses, `sub` the slice asked for or
refuses.

Three operations can break it. `empty` does not look at the sign of its bound. The range test of `sub` adds two
numbers of the caller in 63 bits, so that a sum above `max_int` passes it and `String.sub` raises. And two
strings can be too long together for any string to hold. `Sound` rules these out, and `bounded_strings_iff` says
that a program keeps all the promises exactly when each of its operations is `Sound`.
-/

namespace MirageLambda
open OCaml

namespace BoundedBytes

/-! ## Single operations -/

/-- The bound holds. -/
def Within (t : BoundedBytes) : Prop := (t.bytes.length : Int) ≤ t.max

theorem create_eq_ok {max : Int} {s : Str} {t : BoundedBytes} :
    create max s = .ok t ↔ (s.length : Int) ≤ max ∧ t = ⟨s, max⟩ := by
  unfold create
  split
  · rename_i hneg
    refine iff_of_false (by simp) ?_
    rintro ⟨hle, -⟩
    omega
  split
  · rename_i hlong
    refine iff_of_false (by simp) ?_
    rintro ⟨hle, -⟩
    omega
  · rename_i hshort
    rw [Outcome.ok.injEq]
    exact ⟨fun h => ⟨by omega, h.symm⟩, fun h => h.2.symm⟩

/-- What `create` refuses, it refuses as too large. -/
theorem create_cases (max : Int) (s : Str) :
    ((s.length : Int) ≤ max ∧ create max s = .ok ⟨s, max⟩) ∨ ∃ msg, create max s = .error (invalidPayload msg) := by
  unfold create
  split
  · exact Or.inr ⟨_, rfl⟩
  split
  · exact Or.inr ⟨_, rfl⟩
  · rename_i hshort
    exact Or.inl ⟨by omega, rfl⟩

theorem append_of_cat {a b : BoundedBytes} (h : (a.bytes.length + b.bytes.length : Int) ≤ maxStringLength) :
    append a b = create (min a.max b.max) (a.bytes ++ b.bytes) := by
  rw [append, cat_of_le h, Outcome.ok_bind]

/-- The whole concatenation under the smaller bound, or a refusal. -/
def AppendSpec (a b : BoundedBytes) (r : Outcome Error BoundedBytes) : Prop :=
  (∃ t, r = .ok t ∧ t.bytes = a.bytes ++ b.bytes ∧ t.max = min a.max b.max ∧ t.Within) ∨
    ∃ e, r = .error e ∧ e.code = .payloadTooLarge

/-- **`append` keeps its promise exactly when the concatenation is a string.** -/
theorem append_spec_iff {a b : BoundedBytes} :
    AppendSpec a b (append a b) ↔ (a.bytes.length + b.bytes.length : Int) ≤ maxStringLength := by
  constructor
  · intro hspec
    have hreturns : (append a b).Returns := by
      rcases hspec with ⟨t, ht, -⟩ | ⟨e, he, -⟩
      · rw [ht]
        exact Outcome.returns_ok t
      · rw [he]
        exact Outcome.returns_error e
    exact cat_returns.1 (Outcome.returns_bind.1 hreturns).1
  · intro h
    rw [append_of_cat h]
    rcases create_cases (min a.max b.max) (a.bytes ++ b.bytes) with ⟨hle, hok⟩ | ⟨msg, herr⟩
    · exact Or.inl ⟨_, hok, rfl, rfl, hle⟩
    · exact Or.inr ⟨_, herr, rfl⟩

/-- The slice asked for, or a refusal. -/
def SubSpec (t : BoundedBytes) (off len : Int) (r : Outcome Error BoundedBytes) : Prop :=
  (∃ u, r = .ok u ∧ 0 ≤ off ∧ 0 ≤ len ∧ off + len ≤ t.bytes.length ∧
    u.bytes = (t.bytes.drop off.toNat).take len.toNat ∧ u.max = t.max ∧ u.Within) ∨
  ∃ e, r = .error e

/-- A slice of a string within its bound is within it. -/
theorem sub_of_exact {t : BoundedBytes} (ht : t.Within) {off len : Int}
    (hexact : 0 ≤ off → 0 ≤ len → Fits 63 (off + len)) : SubSpec t off len (sub t off len) := by
  unfold sub
  split
  · exact Or.inr ⟨_, rfl⟩
  · rename_i hrange
    simp only [not_or, not_lt] at hrange
    obtain ⟨hoff, hlen, hsum⟩ := hrange
    rw [(hexact hoff hlen).wrap_eq] at hsum
    have hslice : (OCaml.sub t.bytes off len : Outcome Error Str) = .ok ((t.bytes.drop off.toNat).take len.toNat) := by
      rw [OCaml.sub, if_pos ⟨hoff, hlen, hsum⟩]
    rw [hslice]
    refine Or.inl ⟨_, rfl, hoff, hlen, hsum, rfl, rfl, ?_⟩
    have hshort : ((t.bytes.drop off.toNat).take len.toNat).length ≤ t.bytes.length :=
      (List.length_take_le' _ _).trans (by rw [List.length_drop]; omega)
    unfold Within at ht ⊢
    simp only []
    omega

/-- A sum that leaves the 63 bits comes back negative, passes the range test, and `String.sub` raises. -/
theorem sub_raises_of_overflow {t : BoundedBytes} (ht : (t.bytes.length : Int) ≤ maxStringLength) {off len : IntN 63}
    (hoff : 0 ≤ off.1) (hlen : 0 ≤ len.1) (hover : ¬ Fits 63 (off.1 + len.1)) : (sub t off.1 len.1).Raises := by
  have hoff63 := off.2.2
  have hlen63 := len.2.2
  unfold Fits at hover
  have hwrap : wrap 63 (off.1 + len.1) = off.1 + len.1 - 2 ^ 63 :=
    wrap_of_overflow (by decide) (by omega) (by omega)
  unfold maxStringLength at ht
  have hout : ¬ (0 ≤ off.1 ∧ 0 ≤ len.1 ∧ off.1 + len.1 ≤ t.bytes.length) := by omega
  rw [sub, hwrap, if_neg (by omega), OCaml.sub, if_neg hout]
  exact ⟨_, rfl⟩

/-- **`sub` keeps its promise exactly when the sum of `off` and `len` is exact.** -/
theorem sub_spec_iff {t : BoundedBytes} (ht : t.Within) (hlen : (t.bytes.length : Int) ≤ maxStringLength)
    {off len : IntN 63} :
    SubSpec t off.1 len.1 (sub t off.1 len.1) ↔ (0 ≤ off.1 → 0 ≤ len.1 → Fits 63 (off.1 + len.1)) := by
  refine ⟨fun hspec h0 h1 => ?_, sub_of_exact ht⟩
  by_contra hover
  have hraises := sub_raises_of_overflow hlen h0 h1 hover
  rcases hspec with ⟨u, hu, -⟩ | ⟨e, he⟩
  · rw [hu] at hraises
    exact Outcome.raises_ok u hraises
  · rw [he] at hraises
    exact Outcome.raises_error e hraises

/-! ## Programs -/

/-- One operation of a program. `a` and `b` are positions among the strings built so far. -/
inductive Op where
  | empty (max : IntN 63)
  | create (max : IntN 63) (s : HeapStr)
  | ofString (max : IntN 63) (s : HeapStr)
  | append (a b : Nat)
  | sub (a : Nat) (off len : IntN 63)

/-- How the operation ends; `none` where an operand has not been built. -/
def Op.run (built : List BoundedBytes) : Op → Option (Outcome Error BoundedBytes)
  | .empty max => some (.ok (BoundedBytes.empty max.1))
  | .create max s => some (BoundedBytes.create max.1 s.1)
  | .ofString max s => some (BoundedBytes.ofString max.1 s.1)
  | .append a b => do
    let x ← built[a]?
    let y ← built[b]?
    pure (BoundedBytes.append x y)
  | .sub a off len => do
    let x ← built[a]?
    pure (BoundedBytes.sub x off.1 len.1)

/-- The strings built once the operation has ended. -/
def step (built : List BoundedBytes) (op : Op) : List BoundedBytes :=
  match op.run built with
  | some (.ok t) => built ++ [t]
  | _ => built

/-- What the operation promises. -/
structure Kept (built : List BoundedBytes) (op : Op) : Prop where
  returns : ∀ r, op.run built = some r → r.Returns
  within : ∀ t, op.run built = some (.ok t) → t.Within
  append : ∀ a b x y, op = .append a b → built[a]? = some x → built[b]? = some y →
    AppendSpec x y (BoundedBytes.append x y)
  sub : ∀ a off len x, op = .sub a off len → built[a]? = some x →
    SubSpec x off.1 len.1 (BoundedBytes.sub x off.1 len.1)

/-- No negative bound for `empty`, no concatenation longer than a string, no sum beyond 63 bits for `sub`. -/
def Sound (built : List BoundedBytes) : Op → Prop
  | .empty max => 0 ≤ max.1
  | .create _ _ | .ofString _ _ => True
  | .append a b => ∀ x y, built[a]? = some x → built[b]? = some y →
      (x.bytes.length + y.bytes.length : Int) ≤ maxStringLength
  | .sub a off len => (built[a]?).isSome → 0 ≤ off.1 → 0 ≤ len.1 → Fits 63 (off.1 + len.1)

/-- What the strings built so far are: within their bounds, and strings. -/
def Wf (built : List BoundedBytes) : Prop :=
  ∀ t ∈ built, t.Within ∧ (t.bytes.length : Int) ≤ maxStringLength

theorem run_append {built : List BoundedBytes} {a b : Nat} {r : Outcome Error BoundedBytes} :
    (Op.append a b).run built = some r ↔
      ∃ x y, built[a]? = some x ∧ built[b]? = some y ∧ BoundedBytes.append x y = r := by
  simp [Op.run, Option.bind_eq_some_iff]

theorem run_sub {built : List BoundedBytes} {a : Nat} {off len : IntN 63} {r : Outcome Error BoundedBytes} :
    (Op.sub a off len).run built = some r ↔ ∃ x, built[a]? = some x ∧ BoundedBytes.sub x off.1 len.1 = r := by
  simp [Op.run, Option.bind_eq_some_iff]

/-- An operation that can only build within the bound or refuse keeps the general promises. -/
theorem kept_of_ends {built : List BoundedBytes} {op : Op}
    (hends : ∀ r, op.run built = some r → (∃ t, r = .ok t ∧ t.Within) ∨ ∃ e, r = .error e)
    (happend : ∀ a b x y, op = .append a b → built[a]? = some x → built[b]? = some y →
      AppendSpec x y (BoundedBytes.append x y))
    (hsub : ∀ a off len x, op = .sub a off len → built[a]? = some x →
      SubSpec x off.1 len.1 (BoundedBytes.sub x off.1 len.1)) : Kept built op where
  append := happend
  sub := hsub
  returns := by
    intro r hr
    rcases hends r hr with ⟨t, rfl, -⟩ | ⟨e, rfl⟩
    · exact Outcome.returns_ok t
    · exact Outcome.returns_error e
  within := by
    intro t ht
    rcases hends _ ht with ⟨u, hu, hwithin⟩ | ⟨e, he⟩
    · cases hu
      exact hwithin
    · cases he

theorem kept_create {built : List BoundedBytes} {op : Op} {max : Int} {s : Str}
    (hrun : op.run built = some (create max s)) (happend : ∀ a b, op ≠ .append a b)
    (hsub : ∀ a off len, op ≠ .sub a off len) : Kept built op := by
  refine kept_of_ends (fun r hr => ?_) (fun a b _ _ h => absurd h (happend a b)) fun a off len _ h =>
    absurd h (hsub a off len)
  rw [hrun, Option.some.injEq] at hr
  rw [← hr]
  rcases create_cases max s with ⟨hle, hok⟩ | ⟨msg, herr⟩
  · exact Or.inl ⟨_, hok, hle⟩
  · exact Or.inr ⟨_, herr⟩

/-- **An operation keeps its promises exactly when it is `Sound`.** -/
theorem kept_iff_sound {built : List BoundedBytes} (hwf : Wf built) (op : Op) : Kept built op ↔ Sound built op := by
  cases op with
  | empty max =>
    constructor
    · intro h
      exact h.within _ rfl
    · intro h
      refine kept_of_ends (fun r hr => Or.inl ?_) (by simp) (by simp)
      rw [Op.run, Option.some.injEq] at hr
      exact ⟨_, hr.symm, h⟩
  | create max s => exact iff_of_true (kept_create rfl (by simp) (by simp)) trivial
  | ofString max s => exact iff_of_true (kept_create rfl (by simp) (by simp)) trivial
  | append a b =>
    constructor
    · intro h x y hx hy
      exact append_spec_iff.1 (h.append a b x y rfl hx hy)
    · intro h
      refine kept_of_ends (fun r hr => ?_) ?_ (by simp)
      · obtain ⟨x, y, hx, hy, rfl⟩ := run_append.1 hr
        rcases append_spec_iff.2 (h x y hx hy) with ⟨t, ht, -, -, hwithin⟩ | ⟨e, he, -⟩
        · exact Or.inl ⟨t, ht, hwithin⟩
        · exact Or.inr ⟨e, he⟩
      · rintro a' b' x y ⟨⟩ hx hy
        exact append_spec_iff.2 (h x y hx hy)
  | sub a off len =>
    have hspec : ∀ x, built[a]? = some x → (SubSpec x off.1 len.1 (BoundedBytes.sub x off.1 len.1) ↔
        (0 ≤ off.1 → 0 ≤ len.1 → Fits 63 (off.1 + len.1))) := by
      intro x hx
      obtain ⟨hwithin, hlen⟩ := hwf x (List.mem_of_getElem? hx)
      exact sub_spec_iff hwithin hlen
    constructor
    · intro h hsome
      obtain ⟨x, hx⟩ := Option.isSome_iff_exists.1 hsome
      exact (hspec x hx).1 (h.sub a off len x rfl hx)
    · intro h
      have hall : ∀ x, built[a]? = some x → SubSpec x off.1 len.1 (BoundedBytes.sub x off.1 len.1) :=
        fun x hx => (hspec x hx).2 (h (by rw [hx]; rfl))
      refine kept_of_ends (fun r hr => ?_) (by simp) ?_
      · obtain ⟨x, hx, rfl⟩ := run_sub.1 hr
        rcases hall x hx with ⟨u, hu, -, -, -, -, -, hwithin⟩ | ⟨e, he⟩
        · exact Or.inl ⟨u, hu, hwithin⟩
        · exact Or.inr ⟨e, he⟩
      · rintro a' off' len' x ⟨⟩ hx
        exact hall x hx

/-- What an operation builds is a string. -/
theorem length_of_run {built : List BoundedBytes} (hwf : Wf built) {op : Op} {t : BoundedBytes}
    (h : op.run built = some (.ok t)) : (t.bytes.length : Int) ≤ maxStringLength := by
  cases op with
  | empty max =>
    cases h
    exact (by decide : (0 : Int) ≤ maxStringLength)
  | create max s =>
    obtain ⟨-, rfl⟩ := create_eq_ok.1 (Option.some.inj h)
    exact s.2
  | ofString max s =>
    obtain ⟨-, rfl⟩ := create_eq_ok.1 (Option.some.inj h)
    exact s.2
  | append a b =>
    obtain ⟨x, y, hx, hy, hxy⟩ := run_append.1 h
    obtain ⟨combined, hcat, hcreate⟩ := Outcome.bind_eq_ok.1 hxy
    have hreturns : (cat x.bytes y.bytes : Outcome Error Str).Returns := by
      rw [hcat]
      exact Outcome.returns_ok combined
    have hle := cat_returns.1 hreturns
    rw [cat_of_le hle, Outcome.ok.injEq] at hcat
    obtain ⟨-, rfl⟩ := create_eq_ok.1 hcreate
    rw [← hcat, List.length_append]
    push_cast
    exact hle
  | sub a off len =>
    obtain ⟨x, hx, hsub⟩ := run_sub.1 h
    have hlen := (hwf x (List.mem_of_getElem? hx)).2
    unfold BoundedBytes.sub at hsub
    rw [Outcome.exit_eq_ok] at hsub
    obtain ⟨bytes, hbytes, ht⟩ := Outcome.bind_eq_ok.1 hsub.2
    cases ht
    have hslice : bytes = (x.bytes.drop off.1.toNat).take len.1.toNat := by
      unfold OCaml.sub at hbytes
      split at hbytes
      · exact (Outcome.ok.inj hbytes).symm
      · cases hbytes
    have hshort : bytes.length ≤ x.bytes.length := by
      rw [hslice]
      exact (List.length_take_le' _ _).trans (by rw [List.length_drop]; omega)
    simp only []
    omega

theorem wf_step {built : List BoundedBytes} {op : Op} (hwf : Wf built) (hsound : Sound built op) :
    Wf (step built op) := by
  unfold step
  split
  · rename_i t hrun
    intro u hu
    rcases List.mem_append.1 hu with hu | hu
    · exact hwf u hu
    · rw [List.mem_singleton.1 hu]
      exact ⟨((kept_iff_sound hwf op).2 hsound).within t hrun, length_of_run hwf hrun⟩
  · exact hwf

/-- **Which programs keep the promises of bounded strings**: those whose operations are all `Sound`. -/
theorem bounded_strings_iff (ops : List Op) : Run.Along step Kept [] ops ↔ Run.Along step Sound [] ops :=
  Run.along_congr_of_kept (I := Wf) (fun _ _ => wf_step) (fun _ op hwf => kept_iff_sound hwf op) (by simp [Wf]) ops

/-- `empty` under a negative bound, and a slice whose end is beyond `max_int`. -/
theorem negative_bound_and_slice_overflow :
    ¬ Run.Along step Kept [] [.empty ⟨-1, by decide⟩] ∧
      ¬ Run.Along step Kept [] [.empty ⟨0, by decide⟩, .sub 0 ⟨1, by decide⟩ ⟨2 ^ 62 - 1, by decide⟩] := by
  constructor
  · rintro ⟨h, -⟩
    have hwithin : (0 : Int) ≤ -1 := h.within _ rfl
    omega
  · rintro ⟨-, h, -⟩
    exact h.returns _ rfl _ rfl

end BoundedBytes

end MirageLambda
