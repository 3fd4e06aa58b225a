import Mathlib.Data.List.Basic

/-!
# Self-delimiting codes

When a text determines the words it was put together from. A code is self-delimiting when the code word at
the front of a text, and with it the rest of the text, is determined; this passes to a sequence of code
words behind which a terminator stands.
-/

namespace TextCode

variable {α β : Type*}

/-- The code word at the front of a text is determined, whatever follows. -/
def SelfDelimiting (f : α → List β) : Prop := ∀ a b u v, f a ++ u = f b ++ v → a = b ∧ u = v

/-- Two words over one alphabet, each followed by nothing or by a letter outside it. -/
theorem append_inj_of_alphabet {p : β → Bool} {a b u v : List β} (ha : ∀ x ∈ a, p x) (hb : ∀ x ∈ b, p x)
    (hu : ∀ c ∈ u.head?, p c = false) (hv : ∀ c ∈ v.head?, p c = false) (h : a ++ u = b ++ v) :
    a = b ∧ u = v := by
  have hstop : ∀ w : List β, (∀ c ∈ w.head?, p c = false) → w.takeWhile p = [] := by
    intro w hw
    cases w with
    | nil => rfl
    | cons c w => simp [hw c rfl]
  have htake := congrArg (List.takeWhile p) h
  rw [List.takeWhile_append_of_pos ha, List.takeWhile_append_of_pos hb, hstop u hu, hstop v hv,
    List.append_nil, List.append_nil] at htake
  subst htake
  exact ⟨rfl, List.append_cancel_left h⟩

/-- A sequence of code words up to a terminator that starts none of them. -/
theorem SelfDelimiting.flatMap {f : α → List β} (hf : SelfDelimiting f) {q : β}
    (hq : ∀ a u v, f a ++ u ≠ q :: v) :
    ∀ (s t : List α) (u v : List β), s.flatMap f ++ q :: u = t.flatMap f ++ q :: v → s = t ∧ u = v := by
  intro s
  induction s with
  | nil =>
    intro t u v h
    cases t with
    | nil => exact ⟨rfl, by simpa using h⟩
    | cons b t =>
      simp only [List.flatMap_nil, List.nil_append, List.flatMap_cons, List.append_assoc] at h
      exact absurd h.symm (hq b _ u)
  | cons a s ih =>
    intro t u v h
    simp only [List.flatMap_cons, List.append_assoc] at h
    cases t with
    | nil => exact absurd h (hq a _ v)
    | cons b t =>
      simp only [List.flatMap_cons, List.append_assoc] at h
      obtain ⟨rfl, hrest⟩ := hf a b _ _ h
      obtain ⟨rfl, huv⟩ := ih t u v hrest
      exact ⟨rfl, huv⟩

/-! ## Codes of some of the words -/

section On

variable {P : α → Prop} {f : α → List β}

/-- The code words of those that meet `P` are self-delimiting among themselves. -/
def SelfDelimitingOn (P : α → Prop) (f : α → List β) : Prop :=
  ∀ a b u v, P a → P b → f a ++ u = f b ++ v → a = b ∧ u = v

/-- Sequences of one length. -/
theorem SelfDelimitingOn.counted (hf : SelfDelimitingOn P f) {s t : List α} {u v : List β} (hs : ∀ a ∈ s, P a)
    (ht : ∀ a ∈ t, P a) (hlen : s.length = t.length) (h : s.flatMap f ++ u = t.flatMap f ++ v) : s = t ∧ u = v := by
  induction s generalizing t with
  | nil =>
    obtain rfl := List.length_eq_zero_iff.1 hlen.symm
    exact ⟨rfl, h⟩
  | cons a s ih =>
    cases t with
    | nil => simp at hlen
    | cons b t =>
      obtain ⟨ha, has⟩ := List.forall_mem_cons.1 hs
      obtain ⟨hb, hbt⟩ := List.forall_mem_cons.1 ht
      simp only [List.flatMap_cons, List.append_assoc] at h
      obtain ⟨rfl, hrest⟩ := hf a b _ _ ha hb h
      obtain ⟨rfl, huv⟩ := ih has hbt (by simpa using hlen) hrest
      exact ⟨rfl, huv⟩

/-- A text is cut into code words in at most one way, if none of them is empty. -/
theorem SelfDelimitingOn.flatMap_inj (hf : SelfDelimitingOn P f) (hne : ∀ a, P a → f a ≠ []) {s t : List α}
    (hs : ∀ a ∈ s, P a) (ht : ∀ a ∈ t, P a) (h : s.flatMap f = t.flatMap f) : s = t := by
  induction s generalizing t with
  | nil =>
    cases t with
    | nil => rfl
    | cons b t =>
      rw [List.flatMap_nil, List.flatMap_cons, eq_comm, List.append_eq_nil_iff] at h
      exact absurd h.1 (hne b (ht b (by simp)))
  | cons a s ih =>
    obtain ⟨ha, has⟩ := List.forall_mem_cons.1 hs
    cases t with
    | nil =>
      rw [List.flatMap_nil, List.flatMap_cons, List.append_eq_nil_iff] at h
      exact absurd h.1 (hne a ha)
    | cons b t =>
      obtain ⟨hb, hbt⟩ := List.forall_mem_cons.1 ht
      rw [List.flatMap_cons, List.flatMap_cons] at h
      obtain ⟨rfl, hrest⟩ := hf a b _ _ ha hb h
      rw [ih has hbt hrest]

end On

end TextCode
