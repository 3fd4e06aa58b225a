import MirageLambda.Common.Sha256
import MirageLambda.Lib.Fips180

/-!
# The digest is SHA-256

`Sha256.hash` against `Fips180.sha256`, layer by layer: the constants and the word functions, the padding with its
length in two halves, the words of a block, the schedule in the reused array, a chunk, the message.
-/

namespace MirageLambda.Sha256
open OCaml Fips180

/-! ## Constants and functions -/

theorem isRoot_k : ∀ t < 64, ∃ a < 7, IsRoot 3 (primes.getD t 0) a (k.getD t 0).toNat := by decide +kernel

theorem roundConstant_k {t : Nat} (ht : t < 64) : roundConstant t = (k.getD t 0).toBitVec := by
  obtain ⟨a, -, h⟩ := isRoot_k t ht
  rw [roundConstant_eq ht h]
  simp

@[simp] theorem toBitVec_s0 (x : UInt32) : (s0 x).toBitVec = sigma0 x.toBitVec := by
  simp only [s0, sigma0, UInt32.toBitVec_xor, BitVec.xor_assoc]
  rfl

@[simp] theorem toBitVec_s1 (x : UInt32) : (s1 x).toBitVec = sigma1 x.toBitVec := by
  simp only [s1, sigma1, UInt32.toBitVec_xor, BitVec.xor_assoc]
  rfl

@[simp] theorem toBitVec_big0 (x : UInt32) : (big0 x).toBitVec = bigSigma0 x.toBitVec := by
  simp only [big0, bigSigma0, UInt32.toBitVec_xor, BitVec.xor_assoc]
  rfl

@[simp] theorem toBitVec_big1 (x : UInt32) : (big1 x).toBitVec = bigSigma1 x.toBitVec := by
  simp only [big1, bigSigma1, UInt32.toBitVec_xor, BitVec.xor_assoc]
  rfl

@[simp] theorem toBitVec_ch (x y z : UInt32) :
    (ch x y z).toBitVec = Fips180.ch x.toBitVec y.toBitVec z.toBitVec := rfl

@[simp] theorem toBitVec_maj (x y z : UInt32) :
    (maj x y z).toBitVec = Fips180.maj x.toBitVec y.toBitVec z.toBitVec := by
  simp only [maj, Fips180.maj, UInt32.toBitVec_xor, UInt32.toBitVec_and, BitVec.xor_assoc]

/-- The hash words as words of the standard. -/
def State.words (s : State) : Words :=
  ⟨s.a.toBitVec, s.b.toBitVec, s.c.toBitVec, s.d.toBitVec, s.e.toBitVec, s.f.toBitVec, s.g.toBitVec, s.h.toBitVec⟩

theorem words_add (s t : State) : (s.add t).words = t.words.add s.words := by
  simp only [State.words, State.add, Words.add, UInt32.toBitVec_add, Words.mk.injEq]
  exact ⟨BitVec.add_comm .., BitVec.add_comm .., BitVec.add_comm .., BitVec.add_comm .., BitVec.add_comm ..,
    BitVec.add_comm .., BitVec.add_comm .., BitVec.add_comm ..⟩

theorem words_init : State.init.words = Words.initial := by
  have hword : ∀ (j a : Nat) (x : UInt32), j < 64 → IsRoot 2 (primes.getD j 0) a x.toNat →
      x.toBitVec = initialWord j := by
    intro j a x hj h
    rw [initialWord_eq hj h]
    simp
  simp only [State.words, State.init, Words.initial, Words.mk.injEq]
  refine ⟨hword 0 1 _ ?_ ?_, hword 1 1 _ ?_ ?_, hword 2 2 _ ?_ ?_, hword 3 2 _ ?_ ?_, hword 4 3 _ ?_ ?_,
    hword 5 3 _ ?_ ?_, hword 6 4 _ ?_ ?_, hword 7 4 _ ?_ ?_⟩ <;> decide

/-! ## Padding -/

/-- A byte of a number. -/
theorem bitsOfNat_ofNat (n : Nat) : bitsOfNat 8 (UInt8.ofNat n).toNat = bitsOfNat 8 n := by
  rw [UInt8.toNat_ofNat']
  exact bitsOfNat_mod 8 n

/-- The two halves of the length, byte by byte. -/
theorem bitsOfBytes_length (n : Nat) :
    bitsOfBytes [UInt8.ofNat (n / 2 ^ 32 / 2 ^ 24), UInt8.ofNat (n / 2 ^ 32 / 2 ^ 16), UInt8.ofNat (n / 2 ^ 32 / 2 ^ 8),
      UInt8.ofNat (n / 2 ^ 32), UInt8.ofNat (n / 2 ^ 24), UInt8.ofNat (n / 2 ^ 16), UInt8.ofNat (n / 2 ^ 8),
      UInt8.ofNat n] = bitsOfNat 64 n := by
  simp only [bitsOfBytes_cons, bitsOfBytes_nil, bitsOfNat_ofNat, Nat.div_div_eq_div_mul, ← pow_add, List.append_nil]
  rw [bitsOfNat_add 8 56, bitsOfNat_add 8 48, bitsOfNat_add 8 40, bitsOfNat_add 8 32, bitsOfNat_add 8 24,
    bitsOfNat_add 8 16, bitsOfNat_add 8 8]

theorem bitsOfBytes_zeros (n : Nat) : bitsOfBytes (List.replicate n 0) = List.replicate (8 * n) false := by
  induction n with
  | zero => rfl
  | succ n ih =>
    rw [List.replicate_succ, bitsOfBytes_cons, ih, Nat.mul_add, Nat.add_comm, List.replicate_add]
    rfl

/-- The zero bytes of the source are the zero bits of the standard after the seven of `0x80`. -/
theorem zeros_padLen (ml : Nat) :
    zeros (8 * ml) = 7 + 8 * (if (ml + 1 + 8) % 64 = 0 then 0 else 64 - (ml + 1 + 8) % 64) := by
  refine zeros_eq ?_ ?_
  · split <;> omega
  · split <;> omega

theorem bitsOfBytes_padded {msg : Str} (h : msg.length < 2 ^ 60) : bitsOfBytes (padded msg) = pad (bitsOfBytes msg) := by
  have hlen : msg.length * 8 % 2 ^ 64 = 8 * msg.length := by omega
  unfold padded pad
  simp only [hlen, bitsOfBytes_append, bitsOfBytes_length, bitsOfBytes_zeros, length_bitsOfBytes, zeros_padLen]
  rw [List.replicate_add]
  simp only [List.append_assoc]
  rfl

/-- The padded message is made of whole chunks. -/
theorem length_padded (msg : Str) : 64 ∣ (padded msg).length := by
  have hlen : (padded msg).length =
      msg.length + 1 + (if (msg.length + 1 + 8) % 64 = 0 then 0 else 64 - (msg.length + 1 + 8) % 64) + 8 := by
    simp [padded]
    omega
  rw [hlen]
  split <;> omega

/-! ## Words of a block -/

/-- A byte moved up to bit `m` of a word. -/
theorem toNat_shiftLeft (c : UInt8) {n : UInt32} {m : Nat} (hn : n.toNat = m) (h : m ≤ 24) :
    (c.toUInt32 <<< n).toNat = c.toNat * 2 ^ m := by
  have hc := c.toNat_lt
  have hpow : 2 ^ m ≤ 2 ^ 24 := Nat.pow_le_pow_right (by decide) h
  rw [UInt32.toNat_shiftLeft, UInt8.toNat_toUInt32, hn, Nat.mod_eq_of_lt (show m < 32 by omega), Nat.shiftLeft_eq,
    Nat.mod_eq_of_lt]
  calc c.toNat * 2 ^ m < 2 ^ 8 * 2 ^ m := Nat.mul_lt_mul_of_pos_right hc (Nat.two_pow_pos _)
    _ ≤ 2 ^ 8 * 2 ^ 24 := Nat.mul_le_mul_left _ hpow
    _ = 2 ^ 32 := by norm_num

/-- Bits below the lowest bit of the other number are put beside it. -/
theorem toNat_or {x y : UInt32} {a n : Nat} (hx : x.toNat = a * 2 ^ n) (hy : y.toNat < 2 ^ n) :
    (x ||| y).toNat = a * 2 ^ n + y.toNat := by
  rw [UInt32.toNat_or, hx, ← Nat.shiftLeft_eq, Nat.shiftLeft_add_eq_or_of_lt hy]

/-- Four bytes as one word. -/
theorem toNat_be32 (b : Str) (off : Nat) : (be32 b off).toNat =
    (byteAt b off).toNat * 2 ^ 24 + ((byteAt b (off + 1)).toNat * 2 ^ 16 + ((byteAt b (off + 2)).toNat * 2 ^ 8 +
      (byteAt b (off + 3)).toNat)) := by
  have h1 := (byteAt b (off + 1)).toNat_lt
  have h2 := (byteAt b (off + 2)).toNat_lt
  have h3 := (byteAt b (off + 3)).toNat_lt
  have hlow : (byteAt b (off + 3)).toUInt32.toNat = (byteAt b (off + 3)).toNat := UInt8.toNat_toUInt32 _
  have e2 := toNat_or (toNat_shiftLeft (byteAt b (off + 2)) (n := 8) (m := 8) rfl (by decide))
    (y := (byteAt b (off + 3)).toUInt32) (by omega)
  have e1 := toNat_or (toNat_shiftLeft (byteAt b (off + 1)) (n := 16) (m := 16) rfl (by decide))
    (y := ((byteAt b (off + 2)).toUInt32 <<< 8) ||| (byteAt b (off + 3)).toUInt32) (by omega)
  have e0 := toNat_or (toNat_shiftLeft (byteAt b off) (n := 24) (m := 24) rfl (by decide))
    (y := ((byteAt b (off + 1)).toUInt32 <<< 16) |||
      (((byteAt b (off + 2)).toUInt32 <<< 8) ||| (byteAt b (off + 3)).toUInt32)) (by omega)
  rw [be32, e0, e1, e2, hlow]

theorem drop_four {b : Str} {off : Nat} (h : off + 4 ≤ b.length) : ∃ rest, b.drop off =
    [byteAt b off, byteAt b (off + 1), byteAt b (off + 2), byteAt b (off + 3)] ++ rest := by
  have hbyte : ∀ i, i < b.length → b.drop i = byteAt b i :: b.drop (i + 1) := by
    intro i hi
    rw [List.drop_eq_getElem_cons hi, byteAt, List.getD_eq_getElem _ _ hi]
  refine ⟨b.drop (off + 4), ?_⟩
  rw [hbyte off (by omega), hbyte (off + 1) (by omega), hbyte (off + 2) (by omega), hbyte (off + 3) (by omega)]
  rfl

theorem word_bitsOfBytes {b : Str} {off : Nat} (h : off + 4 ≤ b.length) :
    word (((bitsOfBytes b).drop (8 * off)).take 32) = (be32 b off).toBitVec := by
  obtain ⟨rest, hrest⟩ := drop_four h
  rw [drop_bitsOfBytes, hrest, bitsOfBytes_append, List.take_left' (by simp)]
  have hmod : ∀ c : UInt8, c.toNat % 2 ^ 8 = c.toNat := fun c => Nat.mod_eq_of_lt c.toNat_lt
  have hnat : natOfBits (bitsOfBytes [byteAt b off, byteAt b (off + 1), byteAt b (off + 2), byteAt b (off + 3)]) =
      (be32 b off).toNat := by
    simp only [bitsOfBytes_cons, bitsOfBytes_nil, natOfBits_append, natOfBits_bitsOfNat, List.length_append,
      length_bitsOfNat, List.length_nil, natOfBits, hmod, toNat_be32]
    ring
  rw [word, hnat]
  simp

/-! ## The schedule -/

/-- The word that the source writes at `t` from the words before it. -/
theorem schedule_next {M : Nat → Word} {w : List UInt32} {t : Nat} (ht : 16 ≤ t)
    (hw : ∀ i < t, (w.getD i 0).toBitVec = Fips180.schedule M i) :
    (s1 (w.getD (t - 2) 0) + (w.getD (t - 7) 0 + (s0 (w.getD (t - 15) 0) + w.getD (t - 16) 0))).toBitVec =
      Fips180.schedule M t := by
  rw [Fips180.schedule, if_neg (by omega)]
  simp only [UInt32.toBitVec_add, toBitVec_s0, toBitVec_s1, hw (t - 2) (by omega), hw (t - 7) (by omega),
    hw (t - 15) (by omega), hw (t - 16) (by omega), BitVec.add_assoc]

/-- Writing one word leaves the words before it. -/
theorem prefix_set {M : Nat → Word} {w : List UInt32} {t : Nat} {x : UInt32} (ht : t < w.length)
    (hw : ∀ i < t, (w.getD i 0).toBitVec = Fips180.schedule M i) (hx : x.toBitVec = Fips180.schedule M t) :
    ∀ i < t + 1, ((w.set t x).getD i 0).toBitVec = Fips180.schedule M i := by
  intro i hi
  obtain hlt | rfl := Nat.lt_succ_iff_lt_or_eq.1 hi
  · rw [List.getD_eq_getElem?_getD, List.getElem?_set_ne (by omega), ← List.getD_eq_getElem?_getD]
    exact hw i hlt
  · rw [List.getD_eq_getElem?_getD, List.getElem?_set_self ht]
    exact hx

/-- A loop that writes the words from `t` on, each right when those before it are. -/
theorem foldl_set {M : Nat → Word} (f : List UInt32 → Nat → UInt32) (n t : Nat) (w : List UInt32)
    (hlen : t + n ≤ w.length) (hw : ∀ i < t, (w.getD i 0).toBitVec = Fips180.schedule M i)
    (hf : ∀ i, t ≤ i → i < t + n → ∀ w : List UInt32, (∀ j < i, (w.getD j 0).toBitVec = Fips180.schedule M j) →
      (f w i).toBitVec = Fips180.schedule M i) :
    let w' := (List.range' t n).foldl (fun w i => w.set i (f w i)) w
    w'.length = w.length ∧ ∀ i < t + n, (w'.getD i 0).toBitVec = Fips180.schedule M i := by
  induction n generalizing t w with
  | zero => exact ⟨rfl, hw⟩
  | succ n ih =>
    rw [List.range'_succ, List.foldl_cons]
    have hstep := prefix_set (by omega) hw (hf t le_rfl (by omega) w hw)
    obtain ⟨hlen', hall⟩ := ih (t + 1) (w.set t (f w t)) (by rw [List.length_set]; omega) hstep
      fun i hi hlt => hf i (by omega) (by omega)
    refine ⟨by rw [hlen', List.length_set], fun i hi => hall i (by omega)⟩

/-- The array holds the schedule of the chunk, whatever it held before. -/
theorem schedule_chunk {s : Str} {n : Nat} (h : n * 64 + 64 ≤ s.length) {w : List UInt32} (hw : w.length = 64) :
    (schedule s (n * 64) w).length = 64 ∧
      ∀ t < 64, ((schedule s (n * 64) w).getD t 0).toBitVec =
        Fips180.schedule (blockWord (bitsOfBytes s) n) t := by
  obtain ⟨hlen₁, hfirst⟩ := foldl_set (M := blockWord (bitsOfBytes s) n) (fun _ i => be32 s (n * 64 + i * 4)) 16 0 w
    (by omega) (by omega) (by
      intro i _ hi w _
      rw [Fips180.schedule, if_pos (by omega), blockWord, ← word_bitsOfBytes (by omega)]
      congr 3
      ring)
  rw [← List.range_eq_range'] at hlen₁ hfirst
  obtain ⟨hlen₂, hall⟩ := foldl_set (M := blockWord (bitsOfBytes s) n) (fun w i =>
      s1 (w.getD (i - 2) 0) + (w.getD (i - 7) 0 + (s0 (w.getD (i - 15) 0) + w.getD (i - 16) 0))) 48 16 _
    (by rw [hlen₁]; omega) hfirst fun i hi _ w hw => schedule_next hi hw
  exact ⟨by rw [schedule, hlen₂, hlen₁, hw], hall⟩

/-! ## Rounds, chunks, the message -/

theorem words_round {w : List UInt32} {W : Word} {t : Nat} (ht : t < 64) (hw : (w.getD t 0).toBitVec = W) (s : State) :
    (round w s t).words = Fips180.round (roundConstant t) W s.words := by
  rw [roundConstant_k ht, ← hw]
  simp only [State.words, round, Fips180.round, UInt32.toBitVec_add, toBitVec_big0, toBitVec_big1, toBitVec_ch,
    toBitVec_maj, BitVec.add_assoc]

theorem words_rounds {w : List UInt32} {W : Nat → Word} (ts : List Nat)
    (hts : ∀ t ∈ ts, t < 64 ∧ (w.getD t 0).toBitVec = W t) (s : State) :
    (ts.foldl (round w) s).words = ts.foldl (fun v t => Fips180.round (roundConstant t) (W t) v) s.words := by
  induction ts generalizing s with
  | nil => rfl
  | cons t ts ih =>
    obtain ⟨ht, hw⟩ := hts t List.mem_cons_self
    rw [List.foldl_cons, List.foldl_cons, ih (fun t ht => hts t (List.mem_cons_of_mem _ ht)), words_round ht hw]

theorem words_chunk {s : Str} {n : Nat} (h : n * 64 + 64 ≤ s.length) {st : State × List UInt32}
    (hw : st.2.length = 64) :
    (chunk s st n).2.length = 64 ∧
      (chunk s st n).1.words = compress (blockWord (bitsOfBytes s) n) st.1.words := by
  obtain ⟨hlen, hall⟩ := schedule_chunk h hw
  unfold chunk compress
  simp only []
  generalize schedule s (n * 64) st.2 = w at hlen hall ⊢
  refine ⟨hlen, ?_⟩
  rw [words_add, words_rounds (List.range 64) fun t ht => ⟨List.mem_range.1 ht, hall t (List.mem_range.1 ht)⟩]

theorem words_chunks {s : Str} (ns : List Nat) (hns : ∀ n ∈ ns, n * 64 + 64 ≤ s.length) (st : State × List UInt32)
    (hw : st.2.length = 64) : (ns.foldl (chunk s) st).1.words =
      ns.foldl (fun H i => compress (blockWord (bitsOfBytes s) i) H) st.1.words := by
  induction ns generalizing st with
  | nil => rfl
  | cons n ns ih =>
    obtain ⟨hlen, hwords⟩ := words_chunk (hns n List.mem_cons_self) hw
    rw [List.foldl_cons, List.foldl_cons, ih (fun n hn => hns n (List.mem_cons_of_mem _ hn)) _ hlen, hwords]

theorem bitsOfNat_byte (x : UInt32) {n : UInt32} {m : Nat} (hn : n.toNat = m) (hm : m < 32) :
    bitsOfNat 8 (x >>> n &&& 0xff).toUInt8.toNat = bitsOfNat 8 (x.toNat / 2 ^ m) := by
  have hmask : (x >>> n &&& 0xff).toNat = x.toNat / 2 ^ m % 2 ^ 8 := by
    rw [UInt32.toNat_and, UInt32.toNat_shiftRight, hn, Nat.mod_eq_of_lt hm, Nat.shiftRight_eq_div_pow]
    exact Nat.and_two_pow_sub_one_eq_mod _ 8
  rw [UInt32.toNat_toUInt8, hmask, Nat.mod_mod, bitsOfNat_mod]

/-- The four bytes of a word are its bits. -/
theorem bitsOfBytes_wordBytes (x : UInt32) : bitsOfBytes (wordBytes x) = bitsOfNat 32 x.toBitVec.toNat := by
  have htop : bitsOfNat 8 (x >>> 24).toUInt8.toNat = bitsOfNat 8 (x.toNat / 2 ^ 24) := by
    rw [UInt32.toNat_toUInt8, bitsOfNat_mod, UInt32.toNat_shiftRight, Nat.shiftRight_eq_div_pow]
    rfl
  have hlow : bitsOfNat 8 (x &&& 0xff).toUInt8.toNat = bitsOfNat 8 x.toNat := by
    have h := bitsOfNat_byte x (n := 0) (m := 0) rfl (by decide)
    rwa [UInt32.shiftRight_zero, pow_zero, Nat.div_one] at h
  simp only [wordBytes, bitsOfBytes_cons, bitsOfBytes_nil, List.append_nil, htop, hlow,
    bitsOfNat_byte x (n := 16) (m := 16) rfl (by decide), bitsOfNat_byte x (n := 8) (m := 8) rfl (by decide)]
  rw [UInt32.toNat_toBitVec, bitsOfNat_add 8 24, bitsOfNat_add 8 16, bitsOfNat_add 8 8]

/-- **`Sha256.hash` is SHA-256**: bit for bit the digest of the standard, for every message whose length in bits fits
the field for it. -/
theorem hash_eq_sha256 (msg : Str) (h : msg.length < 2 ^ 60) : bitsOfBytes (hash msg) = sha256 (bitsOfBytes msg) := by
  have hdvd := length_padded msg
  have hchunks : (padded msg).length / 64 = (pad (bitsOfBytes msg)).length / 512 := by
    rw [← bitsOfBytes_padded h, length_bitsOfBytes]
    omega
  have hwords := words_chunks (s := padded msg) (List.range ((padded msg).length / 64))
    (fun n hn => by have := List.mem_range.1 hn; omega) (State.init, List.replicate 64 0) (by simp)
  rw [hchunks, words_init, bitsOfBytes_padded h] at hwords
  unfold hash sha256
  simp only [bitsOfBytes_append, bitsOfBytes_wordBytes, hchunks]
  rw [← hwords]
  rfl

theorem hash_eq_sha256_abc : bitsOfBytes (hash (str "abc")) = sha256 (bitsOfBytes (str "abc")) :=
  hash_eq_sha256 (str "abc") (by decide)

end MirageLambda.Sha256
