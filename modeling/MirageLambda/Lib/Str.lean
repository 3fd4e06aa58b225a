import Mathlib.Data.Nat.Digits.Lemmas
import Mathlib.Data.List.Sort
import Mathlib.Tactic.IntervalCases

/-!
# OCaml strings

An OCaml `string` is a sequence of bytes: `Str` is `List UInt8`, and `String.compare` is Lean's
own `compare` on it (lexicographic, a proper prefix first). This file adds what the standard
library's `String`, `Char` and `Printf` do with them:

* `str` — a string literal (the sources are ASCII);
* `splitOnChar`, `indexOpt` — `String.split_on_char`, `String.index_opt`;
* `decimal`, `intToString` — `%d`;
* `camlString`, `camlChar` — `%S` and `%C`, i.e. `String.escaped` / `Char.escaped` in quotes;
* `parseIntnat` — `int_of_string` (63 bits) and `Int64.of_string` (64 bits).
-/

namespace OCaml

abbrev Str := List UInt8

/-- A string literal of the source. -/
def str (s : String) : Str := s.toList.map fun c => UInt8.ofNat c.toNat

/-- A character literal of the source. -/
def chr (c : Char) : UInt8 := UInt8.ofNat c.toNat

/-- `s.[i]` for an index the surrounding code keeps in range. -/
def byteAt (s : Str) (i : Nat) : UInt8 := s.getD i 0

/-- `String.split_on_char c s`: always at least one piece. -/
def splitOnChar (c : UInt8) : Str → List Str
  | [] => [[]]
  | x :: xs =>
    if x = c then [] :: splitOnChar c xs
    else match splitOnChar c xs with
      | [] => [[x]]
      | p :: ps => (x :: p) :: ps

/-- `String.index_opt s c`. -/
def indexOpt (s : Str) (c : UInt8) : Option Nat := s.findIdx? (· == c)

/-! ## Numbers as text -/

def digitChar (d : Nat) : UInt8 := UInt8.ofNat (48 + d)

/-- `%x` of a nibble. -/
def hexDigit (d : Nat) : UInt8 := if d < 10 then digitChar d else UInt8.ofNat (87 + d)

/-- Decimal digits of a natural number, most significant first. -/
def decimal (n : Nat) : Str := if n = 0 then [48] else (Nat.digits 10 n).reverse.map digitChar

/-- `%d` / `string_of_int` / `Int64.to_string`. -/
def intToString (n : Int) : Str := if n < 0 then chr '-' :: decimal n.natAbs else decimal n.natAbs

/-- `parse_digit` of the runtime's `ints.c`. -/
def parseDigit (c : UInt8) : Option Nat :=
  if 48 ≤ c ∧ c ≤ 57 then some (c.toNat - 48)
  else if 65 ≤ c ∧ c ≤ 70 then some (c.toNat - 55)
  else if 97 ≤ c ∧ c ≤ 102 then some (c.toNat - 87)
  else none

/-- The digit loop of `parse_intnat`: `_` is skipped, the value must stay below `2^64`, and the
loop must consume the whole string. -/
def parseDigits (base : Nat) : Nat → Str → Option Nat
  | res, [] => some res
  | res, c :: cs =>
    if c = chr '_' then parseDigits base res cs
    else match parseDigit c with
      | none => none
      | some d =>
        if d < base then
          if base * res + d < 2 ^ 64 then parseDigits base (base * res + d) cs else none
        else none

/-- `parse_sign_and_base`: sign, base, whether the range check is the signed one, and the rest. -/
def parseSignAndBase (s : Str) : Int × Nat × Bool × Str :=
  let (sign, p) : Int × Str := match s with
    | c :: cs => if c = chr '-' then (-1, cs) else if c = chr '+' then (1, cs) else (1, c :: cs)
    | [] => (1, [])
  match p with
  | z :: b :: rest =>
    if z = chr '0' then
      if b = chr 'x' ∨ b = chr 'X' then (sign, 16, false, rest)
      else if b = chr 'o' ∨ b = chr 'O' then (sign, 8, false, rest)
      else if b = chr 'b' ∨ b = chr 'B' then (sign, 2, false, rest)
      else if b = chr 'u' ∨ b = chr 'U' then (sign, 10, false, rest)
      else (sign, 10, true, p)
    else (sign, 10, true, p)
  | _ => (sign, 10, true, p)

/-- `parse_intnat s nbits`: `int_of_string` at 63 bits, `Int64.of_string` at 64; `none` is the
`Failure` exception. -/
def parseIntnat (nbits : Nat) (s : Str) : Option Int :=
  let (sign, base, signed, p) := parseSignAndBase s
  match p with
  | [] => none
  | c :: cs => match parseDigit c with
    | none => none
    | some d =>
      if d < base then
        match parseDigits base d cs with
        | none => none
        | some res =>
          let inRange := if signed then (if sign ≥ 0 then res < 2 ^ (nbits - 1) else res ≤ 2 ^ (nbits - 1))
            else res < 2 ^ nbits
          if inRange then some ((sign * res).bmod (2 ^ nbits)) else none
      else none

/-! ## `%S` and `%C` -/

/-- `\ddd` of `String.escaped`: three decimal digits. -/
def decimalEscape (c : UInt8) : Str :=
  [chr '\\', digitChar (c.toNat / 100), digitChar (c.toNat / 10 % 10), digitChar (c.toNat % 10)]

/-- One byte under `String.escaped` (`quote = '"'`) or `Char.escaped` (`quote = '\''`). -/
def escapedByte (quote c : UInt8) : Str :=
  if c = quote ∨ c = chr '\\' then [chr '\\', c]
  else if c = 10 then [chr '\\', chr 'n']
  else if c = 9 then [chr '\\', chr 't']
  else if c = 13 then [chr '\\', chr 'r']
  else if c = 8 then [chr '\\', chr 'b']
  else if 32 ≤ c ∧ c ≤ 126 then [c]
  else decimalEscape c

/-- `%S`. -/
def camlString (s : Str) : Str :=
  [chr '"'] ++ s.flatMap (escapedByte (chr '"')) ++ [chr '"']

/-- `%C`. -/
def camlChar (c : UInt8) : Str := [39] ++ escapedByte 39 c ++ [39]

example : camlString (str "a\"b\n") = str "\"a\\\"b\\n\"" := by decide
example : intToString (-120) = str "-120" := by decide
example : parseIntnat 64 (str "-9223372036854775808") = some (-9223372036854775808) := by decide

/-- A fact about all bytes is one about 256 of them, which `decide` can go through. -/
theorem forall_byte {p : UInt8 → Prop} (h : ∀ n : Fin 256, p (UInt8.ofNat n)) (c : UInt8) : p c := by
  have := h ⟨c.toNat, c.toNat_lt⟩
  rwa [show UInt8.ofNat (⟨c.toNat, c.toNat_lt⟩ : Fin 256) = c from UInt8.ofNat_toNat] at this

/-! ## Reading back a printed number -/

theorem parseDigit_digitChar {d : Nat} (h : d < 10) : parseDigit (digitChar d) = some d := by
  interval_cases d <;> decide

theorem digitChar_ne_underscore {d : Nat} (h : d < 10) : digitChar d ≠ chr '_' := by
  interval_cases d <;> decide

/-- The digit loop folds decimal digits, as long as the value stays in 64 bits. -/
theorem parseDigits_map_digitChar :
    ∀ (ds : List Nat) (res : Nat), (∀ d ∈ ds, d < 10) →
      ds.foldl (fun a d => 10 * a + d) res < 2 ^ 64 →
      parseDigits 10 res (ds.map digitChar) = some (ds.foldl (fun a d => 10 * a + d) res)
  | [], res, _, _ => rfl
  | d :: ds, res, hd, hlt => by
    have hd0 : d < 10 := hd d (by simp)
    have hmono : ∀ (l : List Nat) (a : Nat), a ≤ l.foldl (fun a d => 10 * a + d) a := by
      intro l
      induction l with
      | nil => intro a; simp
      | cons x xs ih =>
        intro a
        have := ih (10 * a + x)
        simp only [List.foldl_cons]
        omega
    have hstep : 10 * res + d < 2 ^ 64 := by
      have := hmono ds (10 * res + d)
      simp only [List.foldl_cons] at hlt
      omega
    simp only [List.map_cons, parseDigits, digitChar_ne_underscore hd0, if_false,
      parseDigit_digitChar hd0, hd0, if_true, hstep, List.foldl_cons]
    exact parseDigits_map_digitChar ds _ (fun x hx => hd x (by simp [hx])) hlt

theorem foldl_digits_reverse (n : Nat) :
    (Nat.digits 10 n).reverse.foldl (fun a d => 10 * a + d) 0 = n := by
  rw [List.foldl_reverse]
  have h : ∀ l : List Nat, l.foldr (fun d a => 10 * a + d) 0 = Nat.ofDigits 10 l := by
    intro l
    induction l with
    | nil => rfl
    | cons d ds ih =>
      simp only [List.foldr_cons, Nat.ofDigits_cons, ih]
      omega
  rw [h, Nat.ofDigits_digits]

/-- The decimal digits of a number: the first one is not 0, unless it is the only one. -/
theorem decimal_eq_map (n : Nat) : ∃ d ds, decimal n = (d :: ds).map digitChar ∧
    (∀ x ∈ d :: ds, x < 10) ∧ (d = 0 → ds = []) ∧ ds.foldl (fun a x => 10 * a + x) d = n := by
  by_cases hn : n = 0
  · subst hn
    exact ⟨0, [], by decide, by simp, fun _ => rfl, rfl⟩
  · have hfold := foldl_digits_reverse n
    have hlt : ∀ x ∈ (Nat.digits 10 n).reverse, x < 10 := by
      intro x hx
      exact Nat.digits_lt_base (by omega) (List.mem_reverse.1 hx)
    have hlast := Nat.getLast_digit_ne_zero 10 hn
    have hne := Nat.digits_ne_nil_iff_ne_zero (b := 10) |>.2 hn
    cases hrev : (Nat.digits 10 n).reverse with
    | nil => exact absurd (List.reverse_eq_nil_iff.1 hrev) hne
    | cons d ds =>
      rw [hrev] at hfold hlt
      refine ⟨d, ds, by rw [decimal, if_neg hn, hrev], hlt, fun hd => ?_, by simpa using hfold⟩
      have hl : (Nat.digits 10 n).getLast? = some d := by
        rw [List.getLast?_eq_head?_reverse, hrev]
        rfl
      rw [List.getLast?_eq_some_getLast hne, Option.some.injEq] at hl
      exact absurd (hl.trans hd) hlast

theorem intToString_ne_nil (n : Int) : intToString n ≠ [] := by
  obtain ⟨d, ds, hdec, -⟩ := decimal_eq_map n.natAbs
  unfold intToString
  split
  · exact List.cons_ne_nil _ _
  · rw [hdec]
    exact List.cons_ne_nil _ _

/-- Different numbers print differently. -/
theorem decimal_injective : Function.Injective decimal := by
  intro m n h
  obtain ⟨d, ds, hm, hlt, _, rfl⟩ := decimal_eq_map m
  obtain ⟨d', ds', hn, hlt', _, rfl⟩ := decimal_eq_map n
  have hparse : ∀ l : List Nat, (∀ x ∈ l, x < 10) → (l.map digitChar).map parseDigit = l.map some := by
    intro l hl
    rw [List.map_map]
    apply List.map_congr_left
    intro x hx
    exact parseDigit_digitChar (hl x hx)
  have hsome : (d :: ds).map some = (d' :: ds').map some := by
    rw [← hparse _ hlt, ← hparse _ hlt', ← hm, ← hn, h]
  have hdigits : d :: ds = d' :: ds' := List.map_injective_iff.2 (Option.some_injective Nat) hsome
  cases hdigits
  rfl

theorem digitChar_ne_sign {d : Nat} (h : d < 10) : digitChar d ≠ chr '-' ∧ digitChar d ≠ chr '+' := by
  interval_cases d <;> decide

theorem digitChar_eq_zero {d : Nat} (h : d < 10) (hz : digitChar d = chr '0') : d = 0 := by
  interval_cases d <;> first | rfl | exact absurd hz (by decide)

/-- Without a base letter the base is 10, whatever the sign. -/
theorem parseSignAndBase_intToString (n : Int) :
    parseSignAndBase (intToString n) = (if n < 0 then -1 else 1, 10, true, decimal n.natAbs) := by
  obtain ⟨d, ds, hdec, hlt, hzero, _⟩ := decimal_eq_map n.natAbs
  have hd := hlt d (by simp)
  obtain ⟨hminus, hplus⟩ := digitChar_ne_sign hd
  unfold intToString
  split
  · rw [hdec]
    cases ds with
    | nil => simp [parseSignAndBase]
    | cons x xs =>
      have hz : digitChar d ≠ chr '0' := fun h => by simpa using hzero (digitChar_eq_zero hd h)
      simp [parseSignAndBase, hz]
  · rw [hdec]
    cases ds with
    | nil => simp [parseSignAndBase, hminus, hplus]
    | cons x xs =>
      have hz : digitChar d ≠ chr '0' := fun h => by simpa using hzero (digitChar_eq_zero hd h)
      simp [parseSignAndBase, hminus, hplus, hz]

/-- **`int_of_string` reads back what `%d` prints**, at 63 and at 64 bits. -/
theorem parseIntnat_intToString (nbits : Nat) {n : Int} (h1 : 1 ≤ nbits) (h64 : nbits ≤ 64)
    (hlo : -2 ^ (nbits - 1) ≤ n) (hhi : n < 2 ^ (nbits - 1)) :
    parseIntnat nbits (intToString n) = some n := by
  obtain ⟨d, ds, hdec, hlt, _, hfold⟩ := decimal_eq_map n.natAbs
  have hd := hlt d (by simp)
  have hpow : (2 : Int) ^ nbits = 2 * 2 ^ (nbits - 1) := by
    rw [← pow_succ', Nat.sub_add_cancel h1]
  have hpowNat : (2 : Nat) ^ (nbits - 1) ≤ 2 ^ 63 := Nat.pow_le_pow_right (by omega) (by omega)
  have hcast : ((2 ^ (nbits - 1) : Nat) : Int) = 2 ^ (nbits - 1) := by norm_cast
  have habs : n.natAbs ≤ 2 ^ (nbits - 1) := by omega
  have hdigits : parseDigits 10 d (ds.map digitChar) = some n.natAbs := by
    rw [parseDigits_map_digitChar ds d (fun x hx => hlt x (by simp [hx])) (by rw [hfold]; omega), hfold]
  unfold parseIntnat
  rw [parseSignAndBase_intToString, hdec]
  simp only [List.map_cons, parseDigit_digitChar hd, hd, if_true, hdigits]
  have hval : (if n < 0 then (-1 : Int) else 1) * n.natAbs = n := by
    split <;> omega
  rw [hval, if_pos]
  · rw [Int.bmod_eq_of_le (by push_cast; omega) (by push_cast; omega)]
  · by_cases hneg : n < 0
    · rw [if_pos hneg, if_neg (by omega)]
      exact habs
    · rw [if_neg hneg, if_pos (by omega)]
      omega

end OCaml
