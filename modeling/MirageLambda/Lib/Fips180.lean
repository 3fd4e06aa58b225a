import Mathlib.Analysis.SpecialFunctions.Pow.Real
import Mathlib.NumberTheory.PrimeCounting

/-!
# SHA-256 as the standard defines it (FIPS 180-4)

Bit strings, with the most significant bit first, in and out. The constants are defined as the standard explains them,
as the first bits of the fractional parts of roots of primes; `fractionBits_eq` computes one from two inequalities
between integers.
-/

namespace Fips180

/-! ## Bit strings -/

/-- The last `w` binary digits of `n`. -/
def bitsOfNat : Nat → Nat → List Bool
  | 0, _ => []
  | w + 1, n => n.testBit w :: bitsOfNat w n

/-- The number with these binary digits. -/
def natOfBits : List Bool → Nat
  | [] => 0
  | b :: bs => b.toNat * 2 ^ bs.length + natOfBits bs

/-- The bit string of a byte string. -/
def bitsOfBytes (bytes : List UInt8) : List Bool := bytes.flatMap fun b => bitsOfNat 8 b.toNat

@[simp] theorem length_bitsOfNat (w n : Nat) : (bitsOfNat w n).length = w := by
  induction w with
  | zero => rfl
  | succ w ih => simp [bitsOfNat, ih]

theorem natOfBits_append (a b : List Bool) : natOfBits (a ++ b) = natOfBits a * 2 ^ b.length + natOfBits b := by
  induction a with
  | nil => simp [natOfBits]
  | cons x a ih =>
    simp only [List.cons_append, natOfBits, ih, List.length_append, pow_add]
    ring

@[simp] theorem natOfBits_bitsOfNat (w n : Nat) : natOfBits (bitsOfNat w n) = n % 2 ^ w := by
  induction w with
  | zero => simp [bitsOfNat, natOfBits, Nat.mod_one]
  | succ w ih =>
    simp only [bitsOfNat, natOfBits, length_bitsOfNat, ih]
    rw [Nat.mod_pow_succ, Nat.toNat_testBit, Nat.add_comm, Nat.mul_comm]

/-- The digits in two parts. -/
theorem bitsOfNat_add (u v n : Nat) : bitsOfNat (u + v) n = bitsOfNat u (n / 2 ^ v) ++ bitsOfNat v n := by
  induction u with
  | zero => simp [bitsOfNat]
  | succ u ih =>
    have hlen : u + 1 + v = (u + v) + 1 := by omega
    rw [hlen, bitsOfNat, bitsOfNat, ih, Nat.testBit_div_two_pow, List.cons_append]

theorem bitsOfNat_mod (w n : Nat) : bitsOfNat w (n % 2 ^ w) = bitsOfNat w n := by
  have hle : ∀ u ≤ w, bitsOfNat u (n % 2 ^ w) = bitsOfNat u n := by
    intro u hu
    induction u with
    | zero => rfl
    | succ u ih =>
      have hbit : (n % 2 ^ w).testBit u = n.testBit u := by
        rw [Nat.testBit_mod_two_pow]
        simp [show u < w by omega]
      rw [bitsOfNat, bitsOfNat, hbit, ih (by omega)]
  exact hle w le_rfl

@[simp] theorem bitsOfBytes_nil : bitsOfBytes [] = [] := rfl

@[simp] theorem bitsOfBytes_cons (b : UInt8) (bytes : List UInt8) :
    bitsOfBytes (b :: bytes) = bitsOfNat 8 b.toNat ++ bitsOfBytes bytes := rfl

@[simp] theorem bitsOfBytes_append (a b : List UInt8) : bitsOfBytes (a ++ b) = bitsOfBytes a ++ bitsOfBytes b :=
  List.flatMap_append

@[simp] theorem length_bitsOfBytes (bytes : List UInt8) : (bitsOfBytes bytes).length = 8 * bytes.length := by
  induction bytes with
  | nil => rfl
  | cons b bytes ih => simp [ih, Nat.mul_add, Nat.add_comm]

theorem drop_bitsOfBytes (n : Nat) (bytes : List UInt8) :
    (bitsOfBytes bytes).drop (8 * n) = bitsOfBytes (bytes.drop n) := by
  induction n generalizing bytes with
  | zero => rfl
  | succ n ih =>
    cases bytes with
    | nil => simp
    | cons b bytes =>
      rw [bitsOfBytes_cons, List.drop_succ_cons, ← ih, List.drop_append, length_bitsOfNat]
      have hall : (bitsOfNat 8 b.toNat).drop (8 * (n + 1)) = [] := List.drop_eq_nil_of_le (by simp)
      rw [hall, List.nil_append]
      congr 1

/-! ## Words and functions (sections 3.2 and 4.1.2) -/

abbrev Word := BitVec 32

def word (bits : List Bool) : Word := BitVec.ofNat 32 (natOfBits bits)

def ch (x y z : Word) : Word := (x &&& y) ^^^ (~~~x &&& z)
def maj (x y z : Word) : Word := (x &&& y) ^^^ (x &&& z) ^^^ (y &&& z)
def bigSigma0 (x : Word) : Word := x.rotateRight 2 ^^^ x.rotateRight 13 ^^^ x.rotateRight 22
def bigSigma1 (x : Word) : Word := x.rotateRight 6 ^^^ x.rotateRight 11 ^^^ x.rotateRight 25
def sigma0 (x : Word) : Word := x.rotateRight 7 ^^^ x.rotateRight 18 ^^^ (x >>> 3)
def sigma1 (x : Word) : Word := x.rotateRight 17 ^^^ x.rotateRight 19 ^^^ (x >>> 10)

/-! ## Constants (sections 4.2.2 and 5.3.3) -/

/-- The first 32 bits of the fractional part. -/
noncomputable def fractionBits (x : ℝ) : Word := BitVec.ofNat 32 ⌊Int.fract x * 2 ^ 32⌋₊

/-- `K_t`: from the cube roots of the first 64 primes. -/
noncomputable def roundConstant (t : Nat) : Word := fractionBits ((Nat.nth Nat.Prime t : ℝ) ^ (3⁻¹ : ℝ))

/-- `H_j` at the start: from the square roots of the first eight primes. -/
noncomputable def initialWord (j : Nat) : Word := fractionBits ((Nat.nth Nat.Prime j : ℝ) ^ (2⁻¹ : ℝ))

/-- `a` is the integral part of the `q`-th root of `p` and `c` the first 32 bits after the point. -/
def IsRoot (q p a c : Nat) : Prop :=
  c < 2 ^ 32 ∧ (a * 2 ^ 32 + c) ^ q ≤ p * (2 ^ 32) ^ q ∧ p * (2 ^ 32) ^ q < (a * 2 ^ 32 + c + 1) ^ q

instance (q p a c : Nat) : Decidable (IsRoot q p a c) := inferInstanceAs (Decidable (_ ∧ _ ∧ _))

theorem fractionBits_eq {q p a c : Nat} (hq : q ≠ 0) (h : IsRoot q p a c) :
    fractionBits ((p : ℝ) ^ ((q : ℝ)⁻¹)) = BitVec.ofNat 32 c := by
  obtain ⟨hc, hle, hlt⟩ := h
  have hpow : ((p : ℝ) ^ ((q : ℝ)⁻¹)) ^ q = p := Real.rpow_inv_natCast_pow (Nat.cast_nonneg p) hq
  have hx : 0 ≤ (p : ℝ) ^ ((q : ℝ)⁻¹) := Real.rpow_nonneg (Nat.cast_nonneg p) _
  generalize (p : ℝ) ^ ((q : ℝ)⁻¹) = x at hpow hx ⊢
  have hlow : (a * 2 ^ 32 + c : ℝ) ≤ x * 2 ^ 32 := by
    refine le_of_pow_le_pow_left₀ hq (by positivity) ?_
    rw [mul_pow, hpow]
    exact_mod_cast hle
  have hhigh : x * 2 ^ 32 < (a * 2 ^ 32 + c + 1 : ℝ) := by
    refine lt_of_pow_lt_pow_left₀ q (by positivity) ?_
    rw [mul_pow, hpow]
    exact_mod_cast hlt
  have hc' : (c + 1 : ℝ) ≤ 2 ^ 32 := by exact_mod_cast hc
  have hfloor : ⌊x⌋ = (a : ℤ) := by
    rw [Int.floor_eq_iff]
    constructor
    · have : (0 : ℝ) ≤ c := Nat.cast_nonneg c
      push_cast
      nlinarith
    · push_cast
      nlinarith
  have hfract : Int.fract x = x - a := by
    rw [Int.fract, hfloor]
    rfl
  have hbits : ⌊Int.fract x * 2 ^ 32⌋₊ = c := by
    rw [hfract, Nat.floor_eq_iff (by nlinarith [Int.fract_nonneg x])]
    constructor <;> nlinarith
  rw [fractionBits, hbits]

/-- The first 64 primes. -/
def primes : List Nat :=
  [2, 3, 5, 7, 11, 13, 17, 19, 23, 29, 31, 37, 41, 43, 47, 53, 59, 61, 67, 71, 73, 79, 83, 89, 97, 101, 103, 107, 109,
   113, 127, 131, 137, 139, 149, 151, 157, 163, 167, 173, 179, 181, 191, 193, 197, 199, 211, 223, 227, 229, 233, 239,
   241, 251, 257, 263, 269, 271, 277, 281, 283, 293, 307, 311]

/-- Each number of the list has no divisor up to its root, and each number from one to the next has one. -/
theorem primes_gap :
    (∀ t < 64, 2 ≤ primes.getD t 0 ∧ primes.getD t 0 < 18 ^ 2 ∧ ∀ m < 18, 2 ≤ m → m ∣ primes.getD t 0 →
      m = primes.getD t 0) ∧
    ∀ t < 63, primes.getD t 0 < primes.getD (t + 1) 0 ∧ ∀ d < primes.getD (t + 1) 0 - primes.getD t 0, 0 < d →
      ∃ m < 18, 2 ≤ m ∧ m < primes.getD t 0 + d ∧ m ∣ primes.getD t 0 + d := by
  decide +kernel

theorem prime_primes {t : Nat} (ht : t < 64) : (primes.getD t 0).Prime := by
  obtain ⟨htwo, hsq, hdiv⟩ := primes_gap.1 t ht
  refine Nat.prime_def_le_sqrt.2 ⟨htwo, fun m hm hle hdvd => ?_⟩
  have hroot : Nat.sqrt (primes.getD t 0) < 18 := Nat.sqrt_lt'.2 hsq
  have heq := hdiv m (by omega) hm hdvd
  have hself : Nat.sqrt (primes.getD t 0) < primes.getD t 0 := Nat.sqrt_lt_self (by omega)
  omega

/-- With no prime between them the count goes up by one. -/
theorem count_next {p q : Nat} (hp : p.Prime) (hpq : p < q) (hgap : ∀ n < q, p < n → ¬ n.Prime) :
    Nat.count Nat.Prime q = Nat.count Nat.Prime p + 1 := by
  induction q, hpq using Nat.le_induction with
  | base => rw [Nat.count_succ, if_pos hp]
  | succ q hq ih =>
    rw [Nat.count_succ, if_neg (hgap q (by omega) (by omega)), ih fun n hn => hgap n (by omega)]

theorem count_primes {t : Nat} (ht : t < 64) : Nat.count Nat.Prime (primes.getD t 0) = t := by
  induction t with
  | zero => decide
  | succ t ih =>
    obtain ⟨hlt, hgap⟩ := primes_gap.2 t (by omega)
    rw [count_next (prime_primes (by omega)) hlt, ih (by omega)]
    intro n hn hlt'
    obtain ⟨d, rfl⟩ := Nat.exists_eq_add_of_lt hlt'
    obtain ⟨m, -, hm, hmn, hdvd⟩ := hgap (d + 1) (by omega) (by omega)
    exact Nat.not_prime_of_dvd_of_lt hdvd hm hmn

theorem nth_prime {t : Nat} (ht : t < 64) : Nat.nth Nat.Prime t = primes.getD t 0 := by
  conv_lhs => rw [← count_primes ht]
  exact Nat.nth_count (prime_primes ht)

/-- A round constant from its bits. -/
theorem roundConstant_eq {t a c : Nat} (ht : t < 64) (h : IsRoot 3 (primes.getD t 0) a c) :
    roundConstant t = BitVec.ofNat 32 c := by
  rw [roundConstant, nth_prime ht]
  exact_mod_cast fractionBits_eq (by decide) h

theorem initialWord_eq {j a c : Nat} (hj : j < 64) (h : IsRoot 2 (primes.getD j 0) a c) :
    initialWord j = BitVec.ofNat 32 c := by
  rw [initialWord, nth_prime hj]
  exact_mod_cast fractionBits_eq (by decide) h

/-! ## Padding and parsing (sections 5.1.1 and 5.2.1) -/

theorem exists_zeros (n : Nat) : ∃ k, (n + 1 + k) % 512 = 448 := ⟨(959 - n % 512) % 512, by omega⟩

/-- The least number of zero bits that leads to 448 modulo 512. -/
def zeros (n : Nat) : Nat := Nat.find (exists_zeros n)

theorem zeros_eq {n k : Nat} (hk : k < 512) (h : (n + 1 + k) % 512 = 448) : zeros n = k := by
  refine (Nat.find_eq_iff (exists_zeros n)).2 ⟨h, fun j hj hj' => ?_⟩
  omega

/-- The padded message. -/
def pad (m : List Bool) : List Bool :=
  m ++ [true] ++ List.replicate (zeros m.length) false ++ bitsOfNat 64 m.length

/-- The `j`-th word of the `i`-th block. -/
def blockWord (m : List Bool) (i j : Nat) : Word := word ((m.drop (512 * i + 32 * j)).take 32)

/-! ## The hash (section 6.2.2) -/

/-- The message schedule of a block with the words `M`. -/
def schedule (M : Nat → Word) (t : Nat) : Word :=
  if t < 16 then M t
  else sigma1 (schedule M (t - 2)) + schedule M (t - 7) + sigma0 (schedule M (t - 15)) + schedule M (t - 16)

/-- The eight working variables, and the eight hash words. -/
structure Words where
  a : Word
  b : Word
  c : Word
  d : Word
  e : Word
  f : Word
  g : Word
  h : Word
deriving DecidableEq

noncomputable def Words.initial : Words :=
  ⟨initialWord 0, initialWord 1, initialWord 2, initialWord 3, initialWord 4, initialWord 5, initialWord 6,
    initialWord 7⟩

def Words.add (v w : Words) : Words :=
  ⟨v.a + w.a, v.b + w.b, v.c + w.c, v.d + w.d, v.e + w.e, v.f + w.f, v.g + w.g, v.h + w.h⟩

/-- One round with its constant and its word of the schedule. -/
def round (K W : Word) (v : Words) : Words :=
  let T₁ := v.h + bigSigma1 v.e + ch v.e v.f v.g + K + W
  let T₂ := bigSigma0 v.a + maj v.a v.b v.c
  ⟨T₁ + T₂, v.a, v.b, v.c, v.d + T₁, v.e, v.f, v.g⟩

/-- The hash words after a block with the words `M`. -/
noncomputable def compress (M : Nat → Word) (H : Words) : Words :=
  ((List.range 64).foldl (fun v t => round (roundConstant t) (schedule M t) v) H).add H

def Words.bits (v : Words) : List Bool :=
  bitsOfNat 32 v.a.toNat ++ bitsOfNat 32 v.b.toNat ++ bitsOfNat 32 v.c.toNat ++ bitsOfNat 32 v.d.toNat ++
    bitsOfNat 32 v.e.toNat ++ bitsOfNat 32 v.f.toNat ++ bitsOfNat 32 v.g.toNat ++ bitsOfNat 32 v.h.toNat

/-- **SHA-256** of a message below `2 ^ 64` bits. -/
noncomputable def sha256 (m : List Bool) : List Bool :=
  let padded := pad m
  ((List.range (padded.length / 512)).foldl (fun H i => compress (blockWord padded i) H) Words.initial).bits

end Fips180
