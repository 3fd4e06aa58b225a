import MirageLambda.Lib.Str
import MirageLambda.Lib.MachineInt

/-!
# `strtol`

`strtol(p, &end, 10)` of the C library where `long` has 64 bits, on the bytes of a string without its terminator:
white space, a sign, digits. A number that is no `long` is clamped; without a digit the value is 0 and `end` is `p`.
-/

namespace LibC
open OCaml

/-- `isspace` in the C locale. -/
def isSpace (c : UInt8) : Bool := c == 32 || (9 ≤ c && c ≤ 13)

def isDigit (c : UInt8) : Bool := 48 ≤ c && c ≤ 57

def digitsValue (digits : Str) : Nat := digits.foldl (fun a c => 10 * a + (c.toNat - 48)) 0

/-- The nearest `long`. -/
def clampLong (n : Int) : Int := max (-2 ^ 63) (min n (2 ^ 63 - 1))

/-- The sign of a number, and what follows it. -/
def sign : Str → Int × Str
  | [] => (1, [])
  | c :: cs => if c = chr '-' then (-1, cs) else if c = chr '+' then (1, cs) else (1, c :: cs)

/-- `strtol(p, &end, 10)`: the value and `end`. -/
def strtol (p : Str) : Int × Str :=
  let number := sign (p.dropWhile isSpace)
  let digits := number.2.takeWhile isDigit
  if digits = [] then (0, p) else (clampLong (number.1 * digitsValue digits), number.2.dropWhile isDigit)

/-! ## Reading back a printed number -/

theorem isDigit_digitChar {d : Nat} (h : d < 10) :
    isDigit (digitChar d) = true ∧ isSpace (digitChar d) = false ∧ (digitChar d).toNat - 48 = d := by
  interval_cases d <;> decide

theorem digitsValue_map_digitChar {ds : List Nat} (h : ∀ d ∈ ds, d < 10) :
    digitsValue (ds.map digitChar) = ds.foldl (fun a d => 10 * a + d) 0 := by
  rw [digitsValue, List.foldl_map]
  refine List.foldl_ext _ _ 0 fun a d hd => ?_
  rw [(isDigit_digitChar (h d hd)).2.2]

theorem clampLong_of_fits {n : Int} (h : Fits 64 n) : clampLong n = n := by
  have hlo : -2 ^ 63 ≤ n := h.1
  have hhi : n < 2 ^ 63 := h.2
  unfold clampLong
  rw [min_eq_left (by omega), max_eq_right hlo]

/-- The text of a number starts with its sign; white space in front of it is not possible. -/
theorem sign_intToString (n : Int) (rest : Str) :
    sign ((intToString n ++ rest).dropWhile isSpace) = (if n < 0 then -1 else 1, decimal n.natAbs ++ rest) := by
  obtain ⟨d, ds, hdec, hlt, -⟩ := decimal_eq_map n.natAbs
  obtain ⟨hminus, hplus⟩ := digitChar_ne_sign (hlt d (by simp))
  have hspace := (isDigit_digitChar (hlt d (by simp))).2.1
  have hspace' : isSpace (chr '-') = false := by decide
  unfold intToString
  split
  · simp [hspace', sign]
  · simp [hdec, hspace, sign, hminus, hplus]

/-- **`strtol` reads what `%ld` prints** and stops behind it. -/
theorem strtol_intToString {n : Int} (h : Fits 64 n) {rest : Str} (hrest : rest.takeWhile isDigit = []) :
    strtol (intToString n ++ rest) = (n, rest) := by
  obtain ⟨d, ds, hdec, hlt, -, hvalue⟩ := decimal_eq_map n.natAbs
  have hdigits : ∀ c ∈ decimal n.natAbs, isDigit c = true := by
    rw [hdec]
    intro c hc
    obtain ⟨x, hx, rfl⟩ := List.mem_map.1 hc
    exact (isDigit_digitChar (hlt x hx)).1
  have htake : (decimal n.natAbs ++ rest).takeWhile isDigit = decimal n.natAbs := by
    rw [List.takeWhile_append_of_pos hdigits, hrest, List.append_nil]
  have hdrop : (decimal n.natAbs ++ rest).dropWhile isDigit = rest := by
    have hall := List.takeWhile_append_dropWhile (p := isDigit) (l := rest)
    rw [hrest, List.nil_append] at hall
    rw [List.dropWhile_append_of_pos hdigits, hall]
  have hread : digitsValue (decimal n.natAbs) = n.natAbs := by
    rw [hdec, digitsValue_map_digitChar hlt, List.foldl_cons]
    simpa using hvalue
  have hne : decimal n.natAbs ≠ [] := by
    rw [hdec]
    simp
  have hsigned : (if n < 0 then (-1 : Int) else 1) * n.natAbs = n := by
    split <;> omega
  unfold strtol
  simp only [sign_intToString, htake, hdrop, hread, hne, if_false, hsigned, clampLong_of_fits h]

end LibC
