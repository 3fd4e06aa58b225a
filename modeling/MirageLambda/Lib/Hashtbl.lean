import Mathlib.Data.List.Perm.Basic
import Mathlib.Tactic.Tauto

/-!
# Hash tables

`Hashtbl.t` as the list of its bindings. `add` puts a binding in front of an older one of the same
key, `replace` overwrites the one in front. The order in which `fold` meets the keys is that of the
list; a hash table has some order of its own, and nothing that is proved with `fold` depends on it.
-/

namespace OCaml

structure Hashtbl (κ α : Type) where
  bindings : List (κ × α)
deriving DecidableEq, Repr

namespace Hashtbl

variable {κ α β : Type} [DecidableEq κ]

/-- `Hashtbl.create`. -/
def empty : Hashtbl κ α := ⟨[]⟩

/-- `Hashtbl.find_opt`. -/
def findOpt (t : Hashtbl κ α) (k : κ) : Option α := t.bindings.lookup k

/-- `Hashtbl.mem`. -/
def mem (t : Hashtbl κ α) (k : κ) : Bool := (t.findOpt k).isSome

/-- `Hashtbl.length`. -/
def length (t : Hashtbl κ α) : Nat := t.bindings.length

/-- `Hashtbl.add`. -/
def add (t : Hashtbl κ α) (k : κ) (a : α) : Hashtbl κ α := ⟨(k, a) :: t.bindings⟩

def replaceIn (k : κ) (a : α) : List (κ × α) → List (κ × α)
  | [] => [(k, a)]
  | (k', a') :: rest => if k' = k then (k, a) :: rest else (k', a') :: replaceIn k a rest

/-- `Hashtbl.replace`. -/
def replace (t : Hashtbl κ α) (k : κ) (a : α) : Hashtbl κ α := ⟨replaceIn k a t.bindings⟩

def removeIn (k : κ) : List (κ × α) → List (κ × α)
  | [] => []
  | (k', a) :: rest => if k' = k then rest else (k', a) :: removeIn k rest

/-- `Hashtbl.remove`: the binding in front goes, an older one shows again. -/
def remove (t : Hashtbl κ α) (k : κ) : Hashtbl κ α := ⟨removeIn k t.bindings⟩

/-- `Hashtbl.fold`. -/
def fold (f : κ → α → β → β) (t : Hashtbl κ α) (b : β) : β := t.bindings.foldl (fun b x => f x.1 x.2 b) b

@[simp] theorem findOpt_empty (k : κ) : (empty : Hashtbl κ α).findOpt k = none := rfl

@[simp] theorem findOpt_add (t : Hashtbl κ α) (k k' : κ) (a : α) :
    (t.add k a).findOpt k' = if k' = k then some a else t.findOpt k' := by
  unfold findOpt add
  by_cases h : k' = k
  · subst h
    simp
  · have hbeq : (k' == k) = false := by simpa using h
    simp [List.lookup_cons, hbeq, h]

theorem lookup_replaceIn (k k' : κ) (a : α) (l : List (κ × α)) :
    (replaceIn k a l).lookup k' = if k' = k then some a else l.lookup k' := by
  induction l with
  | nil =>
    by_cases h : k' = k
    · simp [replaceIn, h]
    · have hbeq : (k' == k) = false := by simpa using h
      simp [replaceIn, List.lookup_cons, hbeq, h]
  | cons x rest ih =>
    obtain ⟨k₁, a₁⟩ := x
    rw [replaceIn]
    by_cases h₁ : k₁ = k
    · subst h₁
      rw [if_pos rfl]
      by_cases h : k' = k₁
      · simp [h]
      · have hbeq : (k' == k₁) = false := by simpa using h
        simp [List.lookup_cons, hbeq, h]
    · rw [if_neg h₁, List.lookup_cons, ih, List.lookup_cons]
      by_cases h : k' = k
      · subst h
        have hbeq : (k' == k₁) = false := by simpa using Ne.symm h₁
        simp [hbeq]
      · simp [h]

@[simp] theorem findOpt_replace (t : Hashtbl κ α) (k k' : κ) (a : α) :
    (t.replace k a).findOpt k' = if k' = k then some a else t.findOpt k' :=
  lookup_replaceIn k k' a t.bindings

/-- A new key makes the table longer. -/
theorem length_replace {t : Hashtbl κ α} {k : κ} (h : t.findOpt k = none) (a : α) :
    (t.replace k a).length = t.length + 1 := by
  obtain ⟨l⟩ := t
  unfold findOpt at h
  unfold replace length
  induction l with
  | nil => rfl
  | cons x rest ih =>
    obtain ⟨k', a'⟩ := x
    rw [List.lookup_cons] at h
    by_cases hk : k' = k
    · simp [hk] at h
    · have hbeq : (k == k') = false := by simpa using Ne.symm hk
      rw [hbeq] at h
      simp only [replaceIn, if_neg hk, List.length_cons]
      exact congrArg Nat.succ (ih h)

/-- A new key goes to the end. -/
theorem bindings_replace {t : Hashtbl κ α} {k : κ} (h : t.findOpt k = none) (a : α) :
    (t.replace k a).bindings = t.bindings ++ [(k, a)] := by
  obtain ⟨l⟩ := t
  unfold findOpt at h
  unfold replace
  induction l with
  | nil => rfl
  | cons x rest ih =>
    obtain ⟨k', a'⟩ := x
    rw [List.lookup_cons] at h
    by_cases hk : k' = k
    · simp [hk] at h
    · have hbeq : (k == k') = false := by simpa using Ne.symm hk
      rw [hbeq] at h
      simp only [replaceIn, if_neg hk, List.cons_append]
      exact congrArg (List.cons (k', a')) (ih h)

@[simp] theorem mem_eq_true {t : Hashtbl κ α} {k : κ} : t.mem k = true ↔ ∃ a, t.findOpt k = some a := by
  rw [mem, Option.isSome_iff_exists]

theorem mem_bindings_of_findOpt {t : Hashtbl κ α} {k : κ} {a : α} (h : t.findOpt k = some a) :
    (k, a) ∈ t.bindings := by
  obtain ⟨l₁, l₂, hsplit, -⟩ := List.lookup_eq_some_iff.1 h
  rw [hsplit]
  exact List.mem_append_right _ List.mem_cons_self

/-! ## Tables without hidden bindings -/

/-- No key has two bindings. -/
def Distinct (t : Hashtbl κ α) : Prop := (t.bindings.map Prod.fst).Nodup

theorem findOpt_eq_none_iff {t : Hashtbl κ α} {k : κ} : t.findOpt k = none ↔ k ∉ t.bindings.map Prod.fst := by
  rw [findOpt, List.lookup_eq_none_iff, List.mem_map, not_exists]
  constructor
  · rintro h x ⟨hx, rfl⟩
    simpa using h x hx
  · intro h x hx
    simpa using fun heq : k = x.1 => h x ⟨hx, heq.symm⟩

theorem Distinct.findOpt_eq_some_iff {t : Hashtbl κ α} (h : t.Distinct) {k : κ} {a : α} :
    t.findOpt k = some a ↔ (k, a) ∈ t.bindings := by
  obtain ⟨l⟩ := t
  unfold Distinct at h
  unfold findOpt
  induction l with
  | nil => simp
  | cons x rest ih =>
    obtain ⟨k₁, a₁⟩ := x
    simp only [List.map_cons, List.nodup_cons] at h
    rw [List.lookup_cons]
    by_cases hk : k = k₁
    · subst hk
      have hrest : (k, a) ∉ rest := fun hmem => h.1 (List.mem_map.2 ⟨(k, a), hmem, rfl⟩)
      simp [hrest, eq_comm]
    · have hbeq : (k == k₁) = false := by simpa using hk
      simp only [hbeq, List.mem_cons, Prod.mk.injEq, hk, false_and, false_or]
      exact ih h.2

/-- The order of the bindings does not matter. -/
theorem Distinct.findOpt_perm {t t' : Hashtbl κ α} (h : t.Distinct) (hperm : t'.bindings.Perm t.bindings) (k : κ) :
    t'.findOpt k = t.findOpt k := by
  have h' : t'.Distinct := (hperm.map Prod.fst).nodup_iff.2 h
  apply Option.ext
  intro a
  rw [h.findOpt_eq_some_iff, h'.findOpt_eq_some_iff, hperm.mem_iff]

omit [DecidableEq κ] in
theorem distinct_empty : (empty : Hashtbl κ α).Distinct := List.nodup_nil

theorem Distinct.add {t : Hashtbl κ α} (h : t.Distinct) {k : κ} (hnew : t.findOpt k = none) (a : α) :
    (t.add k a).Distinct := by
  rw [findOpt_eq_none_iff] at hnew
  exact List.nodup_cons.2 ⟨hnew, h⟩

theorem mem_keys_replaceIn {k k' : κ} {a : α} {l : List (κ × α)} (h : k' ∈ (replaceIn k a l).map Prod.fst) :
    k' = k ∨ k' ∈ l.map Prod.fst := by
  induction l with
  | nil => simpa [replaceIn] using h
  | cons x rest ih =>
    rw [replaceIn] at h
    split at h
    · rename_i hx
      simp only [List.map_cons, List.mem_cons] at h ⊢
      tauto
    · simp only [List.map_cons, List.mem_cons] at h ⊢
      tauto

theorem Distinct.replace {t : Hashtbl κ α} (h : t.Distinct) (k : κ) (a : α) : (t.replace k a).Distinct := by
  obtain ⟨l⟩ := t
  unfold Distinct Hashtbl.replace at *
  induction l with
  | nil => simp [replaceIn]
  | cons x rest ih =>
    simp only [List.map_cons, List.nodup_cons] at h
    rw [replaceIn]
    split
    · rename_i hx
      simp only [List.map_cons, List.nodup_cons, ← hx]
      exact h
    · rename_i hx
      simp only [List.map_cons, List.nodup_cons]
      refine ⟨fun hmem => ?_, ih h.2⟩
      obtain heq | hold := mem_keys_replaceIn hmem
      · exact hx heq
      · exact h.1 hold

theorem removeIn_sublist (k : κ) (l : List (κ × α)) : (removeIn k l).Sublist l := by
  induction l with
  | nil => exact List.Sublist.refl _
  | cons x rest ih =>
    rw [removeIn]
    split
    · exact List.sublist_cons_self _ _
    · exact ih.cons_cons x

theorem Distinct.remove {t : Hashtbl κ α} (h : t.Distinct) (k : κ) : (t.remove k).Distinct :=
  ((removeIn_sublist k t.bindings).map Prod.fst).nodup h

omit [DecidableEq κ] in
/-- A fold that lists something for each binding. -/
theorem fold_cons (t : Hashtbl κ α) (f : κ → α → β) :
    t.fold (fun k a acc => f k a :: acc) [] = (t.bindings.reverse.map fun x => f x.1 x.2) := by
  have hacc : ∀ (l : List (κ × α)) (acc : List β),
      l.foldl (fun acc x => f x.1 x.2 :: acc) acc = (l.reverse.map fun x => f x.1 x.2) ++ acc := by
    intro l
    induction l with
    | nil => simp
    | cons x l ih => simp [ih]
  rw [fold, hacc, List.append_nil]

end Hashtbl
end OCaml
