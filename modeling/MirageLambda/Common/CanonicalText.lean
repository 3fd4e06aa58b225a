import Mathlib.Logic.Relation
import MirageLambda.Lib.KeySort
import MirageLambda.Lib.TextCode
import MirageLambda.Common.CanonicalJson

/-!
# What a canonical text identifies (common/canonical_json.ml:57-117)

Two values have the same text exactly when one is the other with object members reordered.

* The encoder is self-delimiting (`encode_append_inj`): a number ends where a byte outside its alphabet
  follows, a string at its closing quote, an array and an object at the bracket.
* With distinct keys the sorted value is a representative of the values that differ in member order only
  (`sort_eq_of_reordered`, `reordered_sort`).
-/

namespace MirageLambda
open OCaml TextCode

namespace CanonicalJson

/-! ## Strings -/

/-- The byte a two-character escape stands for, by its letter. -/
def shortEscape (a : UInt8) : UInt8 :=
  if a = chr 'n' then 10 else if a = chr 'r' then 13 else if a = chr 't' then 9
  else if a = chr 'b' then 8 else if a = chr 'f' then 12 else a

/-- The byte of two hexadecimal digits. -/
def hexPair (h l : UInt8) : UInt8 :=
  UInt8.ofNat (16 * (parseDigit h).getD 0 + (parseDigit l).getD 0)

/-- A byte stands for itself, or it has a two-character escape, or `\u00XX`; the escape tells which. -/
theorem escapeByte_cases (c : UInt8) :
    (escapeByte c = [c] ∧ c ≠ chr '"' ∧ c ≠ chr '\\') ∨
    (∃ a, escapeByte c = [chr '\\', a] ∧ a ≠ chr 'u' ∧ shortEscape a = c) ∨
    (∃ h l, escapeByte c = [chr '\\', chr 'u', chr '0', chr '0', h, l] ∧ hexPair h l = c) := by
  have hbytes : ∀ c : UInt8, (escapeByte c = [c] ∧ c ≠ chr '"' ∧ c ≠ chr '\\') ∨
      (escapeByte c = [chr '\\', (escapeByte c).getD 1 0] ∧ (escapeByte c).getD 1 0 ≠ chr 'u' ∧
        shortEscape ((escapeByte c).getD 1 0) = c) ∨
      (escapeByte c = [chr '\\', chr 'u', chr '0', chr '0', (escapeByte c).getD 4 0, (escapeByte c).getD 5 0] ∧
        hexPair ((escapeByte c).getD 4 0) ((escapeByte c).getD 5 0) = c) :=
    forall_byte (by decide +kernel)
  rcases hbytes c with h | h | h
  · exact Or.inl h
  · exact Or.inr (Or.inl ⟨_, h⟩)
  · exact Or.inr (Or.inr ⟨_, _, h⟩)

theorem selfDelimiting_escapeByte : SelfDelimiting escapeByte := by
  intro c d u v h
  rcases escapeByte_cases c with ⟨hc, _, hc'⟩ | ⟨a, hc, hu, hca⟩ | ⟨x, y, hc, hcx⟩ <;>
    rcases escapeByte_cases d with ⟨hd, _, hd'⟩ | ⟨b, hd, hu', hdb⟩ | ⟨z, w, hd, hdz⟩ <;>
    simp only [hc, hd, List.cons_append, List.nil_append, List.cons.injEq, true_and] at h
  · exact h
  · exact absurd h.1 hc'
  · exact absurd h.1 hc'
  · exact absurd h.1.symm hd'
  · obtain ⟨rfl, huv⟩ := h
    exact ⟨hca.symm.trans hdb, huv⟩
  · exact absurd h.1 hu
  · exact absurd h.1.symm hd'
  · exact absurd h.1.symm hu'
  · obtain ⟨rfl, rfl, huv⟩ := h
    exact ⟨hcx.symm.trans hdz, huv⟩

/-- No escaped byte starts with a quote. -/
theorem escapeByte_ne_quote (c : UInt8) (u v : Str) : escapeByte c ++ u ≠ chr '"' :: v := by
  intro h
  rcases escapeByte_cases c with ⟨hc, hquote, _⟩ | ⟨a, hc, _⟩ | ⟨x, y, hc, _⟩ <;>
    simp only [hc, List.cons_append, List.cons.injEq] at h
  · exact hquote h.1
  · exact absurd h.1 (by decide)
  · exact absurd h.1 (by decide)

theorem selfDelimiting_escapeString : SelfDelimiting escapeString := by
  intro s t u v h
  simp only [escapeString, List.append_assoc, List.cons_append, List.nil_append, List.cons.injEq,
    true_and] at h
  exact selfDelimiting_escapeByte.flatMap escapeByte_ne_quote s t u v h

/-! ## Integers -/

/-- The bytes of a decimal number. -/
def numberByte (c : UInt8) : Bool := c == chr '-' || (chr '0' ≤ c && c ≤ chr '9')

/-- What follows does not continue a number. -/
def EndsNumber (r : Str) : Prop := ∀ c ∈ r.head?, numberByte c = false

theorem numberByte_of_mem_decimal {n : Nat} {c : UInt8} (h : c ∈ decimal n) :
    (chr '0' ≤ c && c ≤ chr '9') = true := by
  obtain ⟨d, ds, hdec, hlt, _⟩ := decimal_eq_map n
  rw [hdec, List.mem_map] at h
  obtain ⟨x, hx, rfl⟩ := h
  have hx10 := hlt x hx
  interval_cases x <;> decide

theorem numberByte_of_mem_intToString {n : Int} {c : UInt8} (h : c ∈ intToString n) :
    numberByte c = true := by
  unfold intToString at h
  unfold numberByte
  split at h
  · rcases List.mem_cons.1 h with rfl | h
    · simp
    · rw [numberByte_of_mem_decimal h, Bool.or_true]
  · rw [numberByte_of_mem_decimal h, Bool.or_true]

theorem intToString_append_inj {m n : Int64} {u v : Str} (hu : EndsNumber u) (hv : EndsNumber v)
    (h : intToString m.toInt ++ u = intToString n.toInt ++ v) : m = n ∧ u = v := by
  obtain ⟨htext, huv⟩ := append_inj_of_alphabet (fun _ => numberByte_of_mem_intToString)
    (fun _ => numberByte_of_mem_intToString) hu hv h
  have hm := parseIntnat_intToString 64 (by omega) (by omega) m.le_toInt m.toInt_lt
  have hn := parseIntnat_intToString 64 (by omega) (by omega) n.le_toInt n.toInt_lt
  rw [htext, hn, Option.some.injEq] at hm
  exact ⟨Int64.toInt_inj.1 hm.symm, huv⟩

/-! ## Values -/

/-- The kind of a value without fractional numbers, which its first byte tells. -/
inductive Kind where
  | null | bool | number | string | array | object
deriving DecidableEq

def kind : CanonicalJson → Kind
  | .null => .null
  | .bool _ => .bool
  | .int _ => .number
  | .float _ => .number
  | .string _ => .string
  | .array _ => .array
  | .object _ => .object

def kindOfByte (c : UInt8) : Option Kind :=
  if c = chr 'n' then some .null
  else if c = chr 't' ∨ c = chr 'f' then some .bool
  else if c = chr '"' then some .string
  else if c = chr '[' then some .array
  else if c = 123 then some .object
  else if numberByte c then some .number
  else none

theorem kindOfByte_number : ∀ c : UInt8, numberByte c = true → kindOfByte c = some .number :=
  forall_byte (by decide +kernel)

theorem encode_eq_cons {x : CanonicalJson} (hx : FloatFree x) :
    ∃ c r, encode x = c :: r ∧ kindOfByte c = some x.kind := by
  cases hx with
  | null => exact ⟨_, _, rfl, by decide⟩
  | bool b => cases b <;> exact ⟨_, _, rfl, by decide⟩
  | int n =>
    simp only [encode, kind]
    cases htext : intToString n.toInt with
    | nil =>
      obtain ⟨d, ds, hdec, _⟩ := decimal_eq_map n.toInt.natAbs
      unfold intToString at htext
      split at htext <;> simp [hdec] at htext
    | cons c r =>
      have hc : c ∈ intToString n.toInt := by simp [htext]
      exact ⟨c, r, rfl, kindOfByte_number c (numberByte_of_mem_intToString hc)⟩
  | string s => exact ⟨_, _, rfl, rfl⟩
  | array xs => cases xs <;> exact ⟨_, _, rfl, rfl⟩
  | object xs => cases xs <;> exact ⟨_, _, rfl, rfl⟩

theorem kind_eq_of_encode_append {x y : CanonicalJson} {u v : Str} (hx : FloatFree x) (hy : FloatFree y)
    (h : encode x ++ u = encode y ++ v) : y.kind = x.kind := by
  obtain ⟨c, r, hxc, hc⟩ := encode_eq_cons hx
  obtain ⟨d, t, hyd, hd⟩ := encode_eq_cons hy
  rw [hxc, hyd] at h
  injection h with hcd _
  rw [hcd, hd] at hc
  exact Option.some.inj hc

/-- A text starts with none of the bytes that only close or separate. -/
theorem encode_append_ne {x : CanonicalJson} (hx : FloatFree x) {c : UInt8} (hc : kindOfByte c = none)
    (u v : Str) : encode x ++ u ≠ c :: v := by
  obtain ⟨d, r, hxd, hd⟩ := encode_eq_cons hx
  rw [hxd]
  intro h
  injection h with hdc _
  rw [hdc, hc] at hd
  cases hd

theorem endsNumber_nil : EndsNumber [] := by
  intro c hc
  cases hc

theorem endsNumber_cons {c : UInt8} (hc : numberByte c = false) (r : Str) : EndsNumber (c :: r) := by
  intro d hd
  cases hd
  exact hc

theorem endsNumber_encodeRest (xs : List CanonicalJson) (u : Str) :
    EndsNumber (encodeRest xs ++ chr ']' :: u) := by
  cases xs with
  | nil => exact endsNumber_cons (by decide) u
  | cons x xs =>
    unfold encodeRest
    exact endsNumber_cons (by decide) _

theorem endsNumber_encodeMembers (xs : List (Str × CanonicalJson)) (u : Str) :
    EndsNumber (encodeMembers xs ++ 125 :: u) := by
  cases xs with
  | nil => exact endsNumber_cons (by decide) u
  | cons x xs =>
    unfold encodeMembers
    exact endsNumber_cons (by decide) _

-- By recursion on the first value; the second one has the same kind, since the texts have the same
-- first byte. Numbers are the only texts that need to know what follows.
mutual
theorem encode_append_inj : ∀ (x y : CanonicalJson) (u v : Str), FloatFree x → FloatFree y →
    EndsNumber u → EndsNumber v → encode x ++ u = encode y ++ v → x = y ∧ u = v
  | .null, y, u, v, hx, hy, _, _, h => by
    have hk := kind_eq_of_encode_append hx hy h
    cases y <;> simp only [kind, reduceCtorEq] at hk
    exact ⟨rfl, List.append_cancel_left h⟩
  | .bool b, y, u, v, hx, hy, _, _, h => by
    have hk := kind_eq_of_encode_append hx hy h
    cases y <;> simp only [kind, reduceCtorEq] at hk
    rename_i c
    cases b <;> cases c
    · exact ⟨rfl, List.append_cancel_left h⟩
    · exact absurd (List.head_eq_of_cons_eq h) (by decide)
    · exact absurd (List.head_eq_of_cons_eq h) (by decide)
    · exact ⟨rfl, List.append_cancel_left h⟩
  | .int m, y, u, v, hx, hy, hu, hv, h => by
    have hk := kind_eq_of_encode_append hx hy h
    cases y <;> simp only [kind, reduceCtorEq] at hk
    · rename_i n
      simp only [encode] at h
      obtain ⟨rfl, huv⟩ := intToString_append_inj hu hv h
      exact ⟨rfl, huv⟩
    · cases hy
  | .float _, _, _, _, hx, _, _, _, _ => by cases hx
  | .string s, y, u, v, hx, hy, _, _, h => by
    have hk := kind_eq_of_encode_append hx hy h
    cases y <;> simp only [kind, reduceCtorEq] at hk
    rename_i t
    simp only [encode] at h
    obtain ⟨rfl, huv⟩ := selfDelimiting_escapeString s t u v h
    exact ⟨rfl, huv⟩
  | .array [], y, u, v, hx, hy, _, _, h => by
    have hk := kind_eq_of_encode_append hx hy h
    cases y <;> simp only [kind, reduceCtorEq] at hk
    rename_i ys
    cases ys with
    | nil => exact ⟨rfl, List.append_cancel_left h⟩
    | cons y ys =>
      simp only [encode, List.append_assoc] at h
      have hy' := floatFree_array.1 hy y (by simp)
      exact absurd (List.tail_eq_of_cons_eq h).symm (encode_append_ne hy' (by decide) _ _)
  | .array (x :: xs), y, u, v, hx, hy, _, _, h => by
    have hk := kind_eq_of_encode_append hx hy h
    cases y <;> simp only [kind, reduceCtorEq] at hk
    rename_i ys
    have hx' := floatFree_array.1 hx
    cases ys with
    | nil =>
      simp only [encode, List.append_assoc] at h
      exact absurd (List.tail_eq_of_cons_eq h) (encode_append_ne (hx' x (by simp)) (by decide) _ _)
    | cons y ys =>
      -- behind the bracket stands what follows a comma elsewhere
      obtain ⟨hxs, huv⟩ := encodeRest_append_inj (x :: xs) (y :: ys) u v hx' (floatFree_array.1 hy)
        (by simpa [encode, encodeRest] using h)
      exact ⟨congrArg CanonicalJson.array hxs, huv⟩
  | .object [], y, u, v, hx, hy, _, _, h => by
    have hk := kind_eq_of_encode_append hx hy h
    cases y <;> simp only [kind, reduceCtorEq] at hk
    rename_i ys
    cases ys with
    | nil => exact ⟨rfl, List.append_cancel_left h⟩
    | cons y ys =>
      obtain ⟨k, y⟩ := y
      simp only [encode, escapeString, List.append_assoc, List.cons_append, List.nil_append,
        List.cons.injEq, true_and] at h
      exact absurd h.1 (by decide)
  | .object ((k, x) :: xs), y, u, v, hx, hy, _, _, h => by
    have hk := kind_eq_of_encode_append hx hy h
    cases y <;> simp only [kind, reduceCtorEq] at hk
    rename_i ys
    have hx' := floatFree_object.1 hx
    cases ys with
    | nil =>
      simp only [encode, escapeString, List.append_assoc, List.cons_append, List.nil_append,
        List.cons.injEq, true_and] at h
      exact absurd h.1 (by decide)
    | cons y ys =>
      obtain ⟨l, y⟩ := y
      obtain ⟨hxs, huv⟩ := encodeMembers_append_inj ((k, x) :: xs) ((l, y) :: ys) u v hx' (floatFree_object.1 hy)
        (by simpa [encode, encodeMembers] using h)
      exact ⟨congrArg CanonicalJson.object hxs, huv⟩

theorem encodeRest_append_inj : ∀ (xs ys : List CanonicalJson) (u v : Str), (∀ x ∈ xs, FloatFree x) →
    (∀ y ∈ ys, FloatFree y) → encodeRest xs ++ chr ']' :: u = encodeRest ys ++ chr ']' :: v →
    xs = ys ∧ u = v
  | [], [], u, v, _, _, h => ⟨rfl, List.tail_eq_of_cons_eq h⟩
  | [], y :: ys, u, v, _, _, h => by
    simp only [encodeRest, List.append_assoc, List.cons_append, List.nil_append, List.cons.injEq] at h
    exact absurd h.1 (by decide)
  | x :: xs, [], u, v, _, _, h => by
    simp only [encodeRest, List.append_assoc, List.cons_append, List.nil_append, List.cons.injEq] at h
    exact absurd h.1 (by decide)
  | x :: xs, y :: ys, u, v, hx, hy, h => by
    simp only [encodeRest, List.append_assoc, List.cons_append, List.nil_append, List.cons.injEq,
      true_and] at h
    obtain ⟨rfl, hrest⟩ := encode_append_inj x y _ _ (hx x (by simp)) (hy y (by simp))
      (endsNumber_encodeRest xs u) (endsNumber_encodeRest ys v) h
    obtain ⟨rfl, huv⟩ := encodeRest_append_inj xs ys u v (fun z hz => hx z (by simp [hz]))
      (fun z hz => hy z (by simp [hz])) hrest
    exact ⟨rfl, huv⟩

theorem encodeMembers_append_inj : ∀ (xs ys : List (Str × CanonicalJson)) (u v : Str),
    (∀ x ∈ xs, FloatFree x.2) → (∀ y ∈ ys, FloatFree y.2) →
    encodeMembers xs ++ 125 :: u = encodeMembers ys ++ 125 :: v → xs = ys ∧ u = v
  | [], [], u, v, _, _, h => ⟨rfl, List.tail_eq_of_cons_eq h⟩
  | [], (l, y) :: ys, u, v, _, _, h => by
    simp only [encodeMembers, List.append_assoc, List.cons_append, List.nil_append, List.cons.injEq] at h
    exact absurd h.1 (by decide)
  | (k, x) :: xs, [], u, v, _, _, h => by
    simp only [encodeMembers, List.append_assoc, List.cons_append, List.nil_append, List.cons.injEq] at h
    exact absurd h.1 (by decide)
  | (k, x) :: xs, (l, y) :: ys, u, v, hx, hy, h => by
    simp only [encodeMembers, List.append_assoc, List.cons_append, List.nil_append, List.cons.injEq,
      true_and] at h
    obtain ⟨rfl, hvalue⟩ := selfDelimiting_escapeString k l _ _ h
    injection hvalue with _ hvalue
    obtain ⟨rfl, hrest⟩ := encode_append_inj x y _ _ (hx (k, x) (by simp)) (hy (k, y) (by simp))
      (endsNumber_encodeMembers xs u) (endsNumber_encodeMembers ys v) hvalue
    obtain ⟨rfl, huv⟩ := encodeMembers_append_inj xs ys u v (fun z hz => hx z (by simp [hz]))
      (fun z hz => hy z (by simp [hz])) hrest
    exact ⟨rfl, huv⟩
end

/-- Without fractional numbers the encoder is injective. -/
theorem encode_inj {x y : CanonicalJson} (hx : FloatFree x) (hy : FloatFree y) (h : encode x = encode y) :
    x = y := by
  have h' : encode x ++ [] = encode y ++ [] := by rw [h]
  exact (encode_append_inj x y [] [] hx hy endsNumber_nil endsNumber_nil h').1

/-! ## Member order -/

/-- One object somewhere in the value has its members reordered. -/
inductive Reorders : CanonicalJson → CanonicalJson → Prop where
  | here {xs ys : List (Str × CanonicalJson)} : xs.Perm ys → Reorders (.object xs) (.object ys)
  | element {x y : CanonicalJson} (l r : List CanonicalJson) :
    Reorders x y → Reorders (.array (l ++ x :: r)) (.array (l ++ y :: r))
  | member {x y : CanonicalJson} (k : Str) (l r : List (Str × CanonicalJson)) :
    Reorders x y → Reorders (.object (l ++ (k, x) :: r)) (.object (l ++ (k, y) :: r))

/-- The second value is the first with object members reordered, at any depth. -/
def Reordered : CanonicalJson → CanonicalJson → Prop := Relation.ReflTransGen Reorders

/-- Every object, at any depth, has pairwise distinct keys. -/
inductive DistinctKeys : CanonicalJson → Prop where
  | null : DistinctKeys .null
  | bool (b : Bool) : DistinctKeys (.bool b)
  | int (n : Int64) : DistinctKeys (.int n)
  | float (f : Float64) : DistinctKeys (.float f)
  | string (s : Str) : DistinctKeys (.string s)
  | array (xs : List CanonicalJson) : (∀ x ∈ xs, DistinctKeys x) → DistinctKeys (.array xs)
  | object (xs : List (Str × CanonicalJson)) : (xs.map Prod.fst).Nodup → (∀ x ∈ xs, DistinctKeys x.2) →
    DistinctKeys (.object xs)

theorem distinctKeys_array {xs : List CanonicalJson} :
    DistinctKeys (.array xs) ↔ ∀ x ∈ xs, DistinctKeys x :=
  ⟨fun h => by cases h; assumption, .array xs⟩

theorem distinctKeys_object {xs : List (Str × CanonicalJson)} :
    DistinctKeys (.object xs) ↔ (xs.map Prod.fst).Nodup ∧ ∀ x ∈ xs, DistinctKeys x.2 :=
  ⟨fun h => by cases h; constructor <;> assumption, fun h => .object xs h.1 h.2⟩

theorem Reorders.symm {v w : CanonicalJson} (h : Reorders v w) : Reorders w v := by
  induction h with
  | here hp => exact .here hp.symm
  | element l r _ ih => exact .element l r ih
  | member k l r _ ih => exact .member k l r ih

theorem Reordered.symm {v w : CanonicalJson} (h : Reordered v w) : Reordered w v := by
  induction h with
  | refl => exact Relation.ReflTransGen.refl
  | tail _ hstep ih => exact Relation.ReflTransGen.head hstep.symm ih

/-- Reordering inside one element of an array. -/
theorem Reordered.element {x y : CanonicalJson} (l r : List CanonicalJson) (h : Reordered x y) :
    Reordered (.array (l ++ x :: r)) (.array (l ++ y :: r)) := by
  induction h with
  | refl => exact Relation.ReflTransGen.refl
  | tail _ hstep ih => exact ih.tail (.element l r hstep)

/-- Reordering inside one member of an object. -/
theorem Reordered.member {x y : CanonicalJson} (k : Str) (l r : List (Str × CanonicalJson))
    (h : Reordered x y) : Reordered (.object (l ++ (k, x) :: r)) (.object (l ++ (k, y) :: r)) := by
  induction h with
  | refl => exact Relation.ReflTransGen.refl
  | tail _ hstep ih => exact ih.tail (.member k l r hstep)

theorem perm_sortMembers (xs : List (Str × CanonicalJson)) : (sortMembers xs).Perm xs :=
  List.perm_insertionSort _ xs

-- The values of an array or an object are sorted one after the other, `l` being those that are done.
mutual
theorem reordered_sort : ∀ v : CanonicalJson, Reordered v (sort v)
  | .null | .bool _ | .int _ | .float _ | .string _ => by
    simp only [sort]
    exact Relation.ReflTransGen.refl
  | .array xs => by
    simp only [sort]
    exact reordered_sortList xs []
  | .object xs => by
    simp only [sort]
    exact (reordered_sortFields xs []).tail (.here (perm_sortMembers _).symm)

theorem reordered_sortList : ∀ xs l : List CanonicalJson,
    Reordered (.array (l ++ xs)) (.array (l ++ sortList xs))
  | [], l => by
    simp only [sortList]
    exact Relation.ReflTransGen.refl
  | x :: xs, l => by
    have hx := (reordered_sort x).element l xs
    have hxs := reordered_sortList xs (l ++ [sort x])
    simp only [List.append_assoc, List.cons_append, List.nil_append] at hxs
    simp only [sortList]
    exact hx.trans hxs

theorem reordered_sortFields : ∀ xs l : List (Str × CanonicalJson),
    Reordered (.object (l ++ xs)) (.object (l ++ sortFields xs))
  | [], l => by
    simp only [sortFields]
    exact Relation.ReflTransGen.refl
  | (k, x) :: xs, l => by
    have hx := (reordered_sort x).member k l xs
    have hxs := reordered_sortFields xs (l ++ [(k, sort x)])
    simp only [List.append_assoc, List.cons_append, List.nil_append] at hxs
    simp only [sortFields]
    exact hx.trans hxs
end

/-! ## The sorted value is a representative -/

theorem sortList_eq_map (xs : List CanonicalJson) : sortList xs = xs.map sort := by
  induction xs with
  | nil => rfl
  | cons x xs ih => simp [sortList, ih]

theorem sortFields_eq_map (xs : List (Str × CanonicalJson)) :
    sortFields xs = xs.map fun p => (p.1, sort p.2) := by
  induction xs with
  | nil => rfl
  | cons x xs ih => simp [sortFields, ih]

theorem map_fst_sortFields (xs : List (Str × CanonicalJson)) :
    (sortFields xs).map Prod.fst = xs.map Prod.fst := by
  simp [sortFields_eq_map, Function.comp_def]

/-- Members with distinct keys are sorted into one list, whatever order they came in. -/
theorem sortMembers_eq_of_perm {xs ys : List (Str × CanonicalJson)} (hp : xs.Perm ys)
    (hnodup : (xs.map Prod.fst).Nodup) : sortMembers xs = sortMembers ys :=
  KeySort.insertionSort_eq_of_perm hp hnodup

theorem Reorders.distinctKeys {v w : CanonicalJson} (h : Reorders v w) (hv : DistinctKeys v) :
    DistinctKeys w := by
  induction h with
  | here hp =>
    rw [distinctKeys_object] at hv ⊢
    refine ⟨(hp.map _).nodup_iff.1 hv.1, ?_⟩
    intro x hx
    exact hv.2 x (hp.mem_iff.2 hx)
  | element l r _ ih =>
    rw [distinctKeys_array] at hv ⊢
    intro z hz
    rcases List.mem_append.1 hz with hz | hz
    · exact hv z (by simp [hz])
    · rcases List.mem_cons.1 hz with rfl | hz
      · exact ih (hv _ (by simp))
      · exact hv z (by simp [hz])
  | member k l r _ ih =>
    rw [distinctKeys_object] at hv ⊢
    refine ⟨by simpa using hv.1, ?_⟩
    intro z hz
    rcases List.mem_append.1 hz with hz | hz
    · exact hv.2 z (by simp [hz])
    · rcases List.mem_cons.1 hz with rfl | hz
      · exact ih (hv.2 (k, _) (by simp))
      · exact hv.2 z (by simp [hz])

theorem Reorders.sort_eq {v w : CanonicalJson} (h : Reorders v w) (hv : DistinctKeys v) :
    sort v = sort w := by
  induction h with
  | here hp =>
    simp only [sort, CanonicalJson.object.injEq]
    apply sortMembers_eq_of_perm
    · rw [sortFields_eq_map, sortFields_eq_map]
      exact hp.map _
    · rw [map_fst_sortFields]
      exact (distinctKeys_object.1 hv).1
  | element l r _ ih =>
    have hx := ih (distinctKeys_array.1 hv _ (by simp))
    simp only [sort, sortList_eq_map, List.map_append, List.map_cons, hx]
  | member k l r _ ih =>
    have hx := ih ((distinctKeys_object.1 hv).2 (k, _) (by simp))
    simp only [sort, sortFields_eq_map, List.map_append, List.map_cons, hx]

theorem sort_eq_of_reordered {v w : CanonicalJson} (h : Reordered v w) (hv : DistinctKeys v) :
    sort v = sort w := by
  have hrun : DistinctKeys w ∧ sort v = sort w := by
    induction h with
    | refl => exact ⟨hv, rfl⟩
    | tail _ hstep ih => exact ⟨hstep.distinctKeys ih.1, ih.2.trans (hstep.sort_eq ih.1)⟩
  exact hrun.2

/-- Sorting before printing changes nothing: `to_string` sorts itself. -/
theorem toString_sort {v : CanonicalJson} (hv : DistinctKeys v) : toString (sort v) = toString v := by
  rw [toString, ← sort_eq_of_reordered (reordered_sort v) hv, toString]

mutual
theorem FloatFree.sort : ∀ v : CanonicalJson, FloatFree v → FloatFree (CanonicalJson.sort v)
  | .null, h | .bool _, h | .int _, h | .float _, h | .string _, h => by
    simpa only [CanonicalJson.sort] using h
  | .array xs, h => by
    simp only [CanonicalJson.sort, floatFree_array]
    exact FloatFree.sortList xs (floatFree_array.1 h)
  | .object xs, h => by
    simp only [CanonicalJson.sort, floatFree_object]
    intro x hx
    exact FloatFree.sortFields xs (floatFree_object.1 h) x ((perm_sortMembers _).mem_iff.1 hx)

theorem FloatFree.sortList : ∀ xs : List CanonicalJson, (∀ x ∈ xs, FloatFree x) →
    ∀ x ∈ CanonicalJson.sortList xs, FloatFree x
  | [], _ => by simp [CanonicalJson.sortList]
  | x :: xs, h => by
    have hx := FloatFree.sort x (h x (by simp))
    have hxs := FloatFree.sortList xs fun y hy => h y (by simp [hy])
    simp only [CanonicalJson.sortList, List.forall_mem_cons]
    exact ⟨hx, hxs⟩

theorem FloatFree.sortFields : ∀ xs : List (Str × CanonicalJson), (∀ x ∈ xs, FloatFree x.2) →
    ∀ x ∈ CanonicalJson.sortFields xs, FloatFree x.2
  | [], _ => by simp [CanonicalJson.sortFields]
  | (k, x) :: xs, h => by
    have hx := FloatFree.sort x (h (k, x) (by simp))
    have hxs := FloatFree.sortFields xs fun y hy => h y (by simp [hy])
    simp only [CanonicalJson.sortFields, List.forall_mem_cons]
    exact ⟨hx, hxs⟩
end

/-- **Canonical JSON identifies exactly the values equal up to member order**: without fractional numbers
and with distinct keys in every object, two values have the same text if and only if one is the other with
object members reordered at any depth. It is enough that the keys of one of them are distinct. -/
theorem toString_eq_iff_reordered {v w : CanonicalJson} (hv : FloatFree v) (hw : FloatFree w)
    (hkv : DistinctKeys v) : toString v = toString w ↔ Reordered v w := by
  unfold toString
  constructor
  · intro h
    have hsort := encode_inj (FloatFree.sort v hv) (FloatFree.sort w hw) h
    have hw' := (reordered_sort w).symm
    rw [← hsort] at hw'
    exact (reordered_sort v).trans hw'
  · intro h
    rw [sort_eq_of_reordered h hkv]

/-- `[{"b": 1, "a": "\n"}]` and the same with the members the other way round. -/
theorem toString_eq_reordered_pair :
    toString (.array [.object [(str "b", .int 1), (str "a", .string [10])]]) =
        toString (.array [.object [(str "a", .string [10]), (str "b", .int 1)]]) ∧
      Reordered (.array [.object [(str "b", .int 1), (str "a", .string [10])]])
        (.array [.object [(str "a", .string [10]), (str "b", .int 1)]]) := by
  have hv : FloatFree (.array [.object [(str "b", .int 1), (str "a", .string [10])]]) := by simp
  have hw : FloatFree (.array [.object [(str "a", .string [10]), (str "b", .int 1)]]) := by simp
  have hkv : DistinctKeys (.array [.object [(str "b", .int 1), (str "a", .string [10])]]) := by
    simp [distinctKeys_array, distinctKeys_object, DistinctKeys.int, DistinctKeys.string, str]
  have htext : toString (.array [.object [(str "b", .int 1), (str "a", .string [10])]]) =
      toString (.array [.object [(str "a", .string [10]), (str "b", .int 1)]]) := by decide +kernel
  exact ⟨htext, (toString_eq_iff_reordered hv hw hkv).1 htext⟩

end CanonicalJson
end MirageLambda
