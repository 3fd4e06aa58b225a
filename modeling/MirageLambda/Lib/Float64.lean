import Mathlib.Data.Nat.Log
import MirageLambda.Lib.Str

/-!
# Printing doubles

An OCaml `float` is its IEEE 754 bit pattern. `g17` is C's `%.17g`: seventeen significant digits of
the exact binary value, correctly rounded (ties to even), in fixed notation for decimal exponents
-4 to 16 and in exponent notation otherwise, trailing zeros dropped.
-/

namespace OCaml

/-- A double, as its 64 bits. -/
structure Float64 where
  bits : UInt64
deriving DecidableEq, Repr

namespace Float64

def negative (f : Float64) : Bool := f.bits.toNat / 2 ^ 63 == 1
def expField (f : Float64) : Nat := f.bits.toNat / 2 ^ 52 % 2 ^ 11
def fracField (f : Float64) : Nat := f.bits.toNat % 2 ^ 52

def isFinite (f : Float64) : Bool := f.expField != 2047

/-- One of the two zeros. -/
def isZero (f : Float64) : Bool := f.expField == 0 && f.fracField == 0

def isNaN (f : Float64) : Bool := f.expField == 2047 && f.fracField != 0

/-- `|f| = num / den` for a finite `f`. -/
def ratio (f : Float64) : Nat × Nat :=
  let m := if f.expField = 0 then f.fracField else f.fracField + 2 ^ 52
  let e := if f.expField = 0 then 1 else f.expField
  if e ≥ 1075 then (m * 2 ^ (e - 1075), 1) else (m, 2 ^ (1075 - e))

/-- `Float.is_integer`. -/
def isInteger (f : Float64) : Bool := f.isFinite && f.ratio.1 % f.ratio.2 == 0

/-- `Float.abs f < 1e15`. -/
def absLt1e15 (f : Float64) : Bool := f.isFinite && decide (f.ratio.1 < 10 ^ 15 * f.ratio.2)

/-- `Int64.of_float` on an integral value. -/
def toInt (f : Float64) : Int :=
  let n : Int := ((f.ratio.1 / f.ratio.2 : Nat) : Int)
  if f.negative then -n else n

/-- `⌊log₁₀ (a / b)⌋` for `a, b > 0`. -/
def log10 (a b : Nat) : Int :=
  let x : Int := (Nat.log 10 a : Int) - Nat.log 10 b
  if 0 ≤ x then (if 10 ^ x.toNat * b ≤ a then x else x - 1)
  else (if b ≤ a * 10 ^ (-x).toNat then x else x - 1)

/-- `a / b` to the nearest integer, ties to even. -/
def roundEven (a b : Nat) : Nat :=
  let q := a / b
  let r := a % b
  if 2 * r < b then q else if b < 2 * r then q + 1 else q + q % 2

def dropZeros (s : Str) : Str := (s.reverse.dropWhile (· == 48)).reverse

def dotted (frac : Str) : Str := if frac = [] then [] else chr '.' :: frac

/-- `%.17g` of a positive value `a / b`. -/
def g17Ratio (a b : Nat) : Str :=
  let x0 := log10 a b
  let k : Int := 16 - x0
  let d0 := if 0 ≤ k then roundEven (a * 10 ^ k.toNat) b else roundEven a (b * 10 ^ (-k).toNat)
  let (d, x) : Nat × Int := if d0 = 10 ^ 17 then (10 ^ 16, x0 + 1) else (d0, x0)
  let ds := decimal d
  if -4 ≤ x ∧ x < 17 then
    if 0 ≤ x then ds.take (x.toNat + 1) ++ dotted (dropZeros (ds.drop (x.toNat + 1)))
    else str "0." ++ List.replicate ((-x).toNat - 1) 48 ++ dropZeros ds
  else
    let e := decimal x.natAbs
    ds.take 1 ++ dotted (dropZeros (ds.drop 1)) ++ [chr 'e', if x < 0 then chr '-' else chr '+'] ++
      (if e.length < 2 then 48 :: e else e)

/-- `Printf.sprintf "%.17g"`. -/
def g17 (f : Float64) : Str :=
  let sign := if f.negative then [chr '-'] else []
  if !f.isFinite then sign ++ (if f.fracField = 0 then str "inf" else str "nan")
  else if f.ratio.1 = 0 then sign ++ str "0"
  else sign ++ g17Ratio f.ratio.1 f.ratio.2

end Float64
end OCaml
