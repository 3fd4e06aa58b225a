import MirageLambda.Lib.Str

/-!
# SHA-256 (common/bundle.ml:17-103)

The pure OCaml digest of `Bundle.Sha256`, word for word: `Int32` is `UInt32`, the working array `w`
is allocated once and overwritten by every chunk, the eight hash words are a record. What the rest
of the development needs of it is that `hash` is a function and that a digest has 32 bytes
(`length_hash`); its hex form then is a `Digest`.
-/

namespace MirageLambda.Sha256
open OCaml

/-- `Sha256.k` (bundle.ml:18). -/
def k : List UInt32 :=
  [0x428a2f98, 0x71374491, 0xb5c0fbcf, 0xe9b5dba5, 0x3956c25b, 0x59f111f1,
   0x923f82a4, 0xab1c5ed5, 0xd807aa98, 0x12835b01, 0x243185be, 0x550c7dc3,
   0x72be5d74, 0x80deb1fe, 0x9bdc06a7, 0xc19bf174, 0xe49b69c1, 0xefbe4786,
   0x0fc19dc6, 0x240ca1cc, 0x2de92c6f, 0x4a7484aa, 0x5cb0a9dc, 0x76f988da,
   0x983e5152, 0xa831c66d, 0xb00327c8, 0xbf597fc7, 0xc6e00bf3, 0xd5a79147,
   0x06ca6351, 0x14292967, 0x27b70a85, 0x2e1b2138, 0x4d2c6dfc, 0x53380d13,
   0x650a7354, 0x766a0abb, 0x81c2c92e, 0x92722c85, 0xa2bfe8a1, 0xa81a664b,
   0xc24b8b70, 0xc76c51a3, 0xd192e819, 0xd6990624, 0xf40e3585, 0x106aa070,
   0x19a4c116, 0x1e376c08, 0x2748774c, 0x34b0bcb5, 0x391c0cb3, 0x4ed8aa4a,
   0x5b9cca4f, 0x682e6ff3, 0x748f82ee, 0x78a5636f, 0x84c87814, 0x8cc70208,
   0x90befffa, 0xa4506ceb, 0xbef9a3f7, 0xc67178f2]

def rotr (n x : UInt32) : UInt32 := (x >>> n) ||| (x <<< (32 - n))
def shr (n x : UInt32) : UInt32 := x >>> n
def s0 (x : UInt32) : UInt32 := rotr 7 x ^^^ (rotr 18 x ^^^ shr 3 x)
def s1 (x : UInt32) : UInt32 := rotr 17 x ^^^ (rotr 19 x ^^^ shr 10 x)
def big0 (x : UInt32) : UInt32 := rotr 2 x ^^^ (rotr 13 x ^^^ rotr 22 x)
def big1 (x : UInt32) : UInt32 := rotr 6 x ^^^ (rotr 11 x ^^^ rotr 25 x)
def ch (x y z : UInt32) : UInt32 := (x &&& y) ^^^ (~~~x &&& z)
def maj (x y z : UInt32) : UInt32 := (x &&& y) ^^^ ((x &&& z) ^^^ (y &&& z))

/-- `Sha256.be32` (bundle.ml:41); the callers stay inside the padded buffer. -/
def be32 (b : Str) (off : Nat) : UInt32 :=
  ((byteAt b off).toUInt32 <<< 24) ||| (((byteAt b (off + 1)).toUInt32 <<< 16) |||
    (((byteAt b (off + 2)).toUInt32 <<< 8) ||| (byteAt b (off + 3)).toUInt32))

/-- `Sha256.word_bytes` (bundle.ml:48). -/
def wordBytes (x : UInt32) : Str :=
  [(x >>> 24).toUInt8, (x >>> 16 &&& 0xff).toUInt8, (x >>> 8 &&& 0xff).toUInt8, (x &&& 0xff).toUInt8]

/-- The array `h`, and the locals `a … hh` of the round loop. -/
structure State where
  a : UInt32
  b : UInt32
  c : UInt32
  d : UInt32
  e : UInt32
  f : UInt32
  g : UInt32
  h : UInt32
deriving DecidableEq, Repr

def State.init : State :=
  ⟨0x6a09e667, 0xbb67ae85, 0x3c6ef372, 0xa54ff53a, 0x510e527f, 0x9b05688c, 0x1f83d9ab, 0x5be0cd19⟩

/-- `h.(i) <- Int32.add h.(i) …`. -/
def State.add (s t : State) : State :=
  ⟨s.a + t.a, s.b + t.b, s.c + t.c, s.d + t.d, s.e + t.e, s.f + t.f, s.g + t.g, s.h + t.h⟩

/-- The padded buffer: the message, `0x80`, zeros, the length in bits as eight bytes
(bundle.ml:57-76). `high` and `low` are the halves of the 64-bit product. -/
def padded (msg : Str) : Str :=
  let ml := msg.length
  let bitlen := ml * 8 % 2 ^ 64
  let r := (ml + 1 + 8) % 64
  let padLen := if r = 0 then 0 else 64 - r
  let high := bitlen / 2 ^ 32
  let low := bitlen
  msg ++ [0x80] ++ List.replicate padLen 0 ++
    [UInt8.ofNat (high / 2 ^ 24), UInt8.ofNat (high / 2 ^ 16), UInt8.ofNat (high / 2 ^ 8), UInt8.ofNat high,
     UInt8.ofNat (low / 2 ^ 24), UInt8.ofNat (low / 2 ^ 16), UInt8.ofNat (low / 2 ^ 8), UInt8.ofNat low]

/-- The two loops that fill `w` for one chunk (bundle.ml:83-86). -/
def schedule (s : Str) (base : Nat) (w : List UInt32) : List UInt32 :=
  let w := (List.range 16).foldl (fun w i => w.set i (be32 s (base + i * 4))) w
  (List.range' 16 48).foldl (fun w i =>
    w.set i (s1 (w.getD (i - 2) 0) + (w.getD (i - 7) 0 + (s0 (w.getD (i - 15) 0) + w.getD (i - 16) 0)))) w

/-- One turn of the round loop (bundle.ml:90-95). -/
def round (w : List UInt32) (s : State) (i : Nat) : State :=
  let t1 := s.h + (big1 s.e + (ch s.e s.f s.g + (k.getD i 0 + w.getD i 0)))
  let t2 := big0 s.a + maj s.a s.b s.c
  { h := s.g, g := s.f, f := s.e, e := s.d + t1, d := s.c, c := s.b, b := s.a, a := t1 + t2 }

/-- One chunk: the schedule, 64 rounds, the sums (bundle.ml:81-100). -/
def chunk (s : Str) (st : State × List UInt32) (n : Nat) : State × List UInt32 :=
  let w := schedule s (n * 64) st.2
  (st.1.add ((List.range 64).foldl (round w) st.1), w)

/-- `Sha256.hash` (bundle.ml:56). -/
def hash (msg : Str) : Str :=
  let s := padded msg
  let h := ((List.range (s.length / 64)).foldl (chunk s) (State.init, List.replicate 64 0)).1
  wordBytes h.a ++ wordBytes h.b ++ wordBytes h.c ++ wordBytes h.d ++
    wordBytes h.e ++ wordBytes h.f ++ wordBytes h.g ++ wordBytes h.h

@[simp] theorem length_hash (msg : Str) : (hash msg).length = 32 := by
  simp [hash, wordBytes]

/-- `Sha256.to_hex` (bundle.ml:107). -/
def toHex (raw : Str) : Str := raw.flatMap fun c => [hexDigit (c.toNat / 16), hexDigit (c.toNat % 16)]

example : toHex (hash (str "abc")) =
    str "ba7816bf8f01cfea414140de5dae2223b00361a396177a9cb410ff61f20015ad" := by decide +kernel

@[simp] theorem length_toHex (raw : Str) : (toHex raw).length = 2 * raw.length := by
  induction raw with
  | nil => rfl
  | cons c cs ih =>
    simp only [toHex, List.flatMap_cons, List.length_append, List.length_cons, List.length_nil] at ih ⊢
    omega

end MirageLambda.Sha256
