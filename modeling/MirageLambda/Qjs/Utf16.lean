import MirageLambda.Qjs.Stringify

/-!
# UTF-16 and UTF-8 (cutils.c:216-302, quickjs.c `JS_ToCString`, `string_buffer_putc`)

A JavaScript string is a list of code units, and `codePoints` cuts it into code points. `flatMap_putc_codePoints`: what
is cut is put together again, unmatched surrogates included. `unicodeFromUtf8_unicodeToUtf8`: the reader takes the
bytes of a code point for this code point and leaves what follows.

Cutting a concatenation may join a surrogate at the end of one part with one at the start of the next. `Whole` strings
do not end so: they are encoded on their own.
-/

namespace MirageLambda.Qjs
open OCaml

/-! ## Code points -/

/-- A code point that is no surrogate. -/
def Scalar (c : Nat) : Prop := c < 0xd800 ∨ 0xe000 ≤ c ∧ c < 0x110000

/-- A unit that is no high surrogate stands for itself. -/
theorem codePoints_cons_of_not_high {c : UInt16} (hc : ¬ (0xd800 ≤ c ∧ c < 0xdc00)) (s : List UInt16) :
    codePoints (c :: s) = c.toNat :: codePoints s := by
  cases s with
  | nil => rfl
  | cons d s => rw [codePoints, if_neg fun hp => hc hp.1]

theorem putc_of_lt {c : Nat} (h : c < 0x10000) : putc c = [UInt16.ofNat c] := if_neg (by omega)

/-- The two surrogates of a code point from `0x10000` on. -/
theorem putc_of_ge {c : Nat} (h : 0x10000 ≤ c) :
    putc c = [UInt16.ofNat ((c - 0x10000) / 0x400 + 0xd800), UInt16.ofNat (c % 0x400 + 0xdc00)] := by
  rw [putc, if_pos h, Nat.shiftRight_eq_div_pow, Nat.and_two_pow_sub_one_eq_mod c 10]

/-- **Cutting and putting together.** -/
theorem flatMap_putc_codePoints (s : List UInt16) : (codePoints s).flatMap putc = s := by
  fun_induction codePoints s with
  | case1 => rfl
  | case2 c => rw [List.flatMap_cons, putc_of_lt c.toNat_lt, UInt16.ofNat_toNat, List.flatMap_nil, List.append_nil]
  | case3 c d s hpair ih =>
    obtain ⟨⟨hc, hc'⟩, hd, hd'⟩ := hpair
    have hc : 0xd800 ≤ c.toNat := UInt16.le_iff_toNat_le.1 hc
    have hc' : c.toNat < 0xdc00 := UInt16.lt_iff_toNat_lt.1 hc'
    have hd : 0xdc00 ≤ d.toNat := UInt16.le_iff_toNat_le.1 hd
    have hd' : d.toNat < 0xe000 := UInt16.lt_iff_toNat_lt.1 hd'
    have hhigh : (0x10000 + (c.toNat - 0xd800) * 0x400 + (d.toNat - 0xdc00) - 0x10000) / 0x400 + 0xd800 = c.toNat := by
      omega
    have hlow : (0x10000 + (c.toNat - 0xd800) * 0x400 + (d.toNat - 0xdc00)) % 0x400 + 0xdc00 = d.toNat := by omega
    rw [List.flatMap_cons, ih, putc_of_ge (by omega), hhigh, hlow, UInt16.ofNat_toNat, UInt16.ofNat_toNat]
    rfl
  | case4 c d s hpair ih =>
    rw [List.flatMap_cons, ih, putc_of_lt c.toNat_lt, UInt16.ofNat_toNat]
    rfl

theorem codePoints_putc {c : Nat} (h : Scalar c) (s : List UInt16) : codePoints (putc c ++ s) = c :: codePoints s := by
  by_cases hlt : c < 0x10000
  · have htoNat : (UInt16.ofNat c).toNat = c := UInt16.toNat_ofNat_of_lt' hlt
    have hhigh : ¬ (0xd800 ≤ UInt16.ofNat c ∧ UInt16.ofNat c < 0xdc00) := by
      rw [UInt16.le_iff_toNat_le, UInt16.lt_iff_toNat_lt, htoNat]
      rintro ⟨hle : 0xd800 ≤ c, hlt : c < 0xdc00⟩
      unfold Scalar at h
      omega
    rw [putc_of_lt hlt, List.singleton_append, codePoints_cons_of_not_high hhigh, htoNat]
  · unfold Scalar at h
    have hhigh : (UInt16.ofNat ((c - 0x10000) / 0x400 + 0xd800)).toNat = (c - 0x10000) / 0x400 + 0xd800 :=
      UInt16.toNat_ofNat_of_lt' (show _ < 65536 by omega)
    have hlow : (UInt16.ofNat (c % 0x400 + 0xdc00)).toNat = c % 0x400 + 0xdc00 :=
      UInt16.toNat_ofNat_of_lt' (show _ < 65536 by omega)
    have hjoin : 0x10000 + ((c - 0x10000) / 0x400 + 0xd800 - 0xd800) * 0x400 + (c % 0x400 + 0xdc00 - 0xdc00) = c := by
      omega
    rw [putc_of_ge (by omega), List.cons_append, List.singleton_append, codePoints, if_pos ?_]
    · rw [hhigh, hlow, hjoin]
    · simp only [UInt16.le_iff_toNat_le, UInt16.lt_iff_toNat_lt, hhigh, hlow]
      refine ⟨⟨?_, ?_⟩, ?_, ?_⟩
      · show 0xd800 ≤ _
        omega
      · show _ < 0xdc00
        omega
      · show 0xdc00 ≤ _
        omega
      · show _ < 0xe000
        omega

/-! ## Strings that are encoded on their own -/

/-- The bytes of the string do not depend on what follows it. -/
def Whole (u : List UInt16) : Prop := ∀ s, toCString (u ++ s) = toCString u ++ toCString s

theorem Whole.nil : Whole [] := fun _ => rfl

theorem Whole.append {u v : List UInt16} (hu : Whole u) (hv : Whole v) : Whole (u ++ v) := by
  intro s
  rw [List.append_assoc, hu, hv, hu, List.append_assoc]

theorem Whole.flatMap {f : Nat → List UInt16} {cs : List Nat} (h : ∀ c ∈ cs, Whole (f c)) : Whole (cs.flatMap f) := by
  induction cs with
  | nil => exact .nil
  | cons c cs ih =>
    rw [List.flatMap_cons]
    exact (h c (by simp)).append (ih fun d hd => h d (by simp [hd]))

theorem toCString_flatMap {f : Nat → List UInt16} {cs : List Nat} (h : ∀ c ∈ cs, Whole (f c)) :
    toCString (cs.flatMap f) = cs.flatMap fun c => toCString (f c) := by
  induction cs with
  | nil => rfl
  | cons c cs ih => rw [List.flatMap_cons, List.flatMap_cons, h c (by simp), ih fun d hd => h d (by simp [hd])]

theorem toCString_putc_append {c : Nat} (h : Scalar c) (s : List UInt16) :
    toCString (putc c ++ s) = unicodeToUtf8 c ++ toCString s := by
  rw [toCString, codePoints_putc h, List.flatMap_cons]
  rfl

theorem toCString_putc {c : Nat} (h : Scalar c) : toCString (putc c) = unicodeToUtf8 c := by
  have happ := toCString_putc_append h []
  rwa [List.append_nil, show toCString [] = [] from rfl, List.append_nil] at happ

theorem Whole.putc {c : Nat} (h : Scalar c) : Whole (putc c) := by
  intro s
  rw [toCString_putc_append h, toCString_putc h]

theorem toCString_units_append {s : Str} (h : Legible s) (u : List UInt16) :
    toCString (units s ++ u) = s ++ toCString u := by
  have hascii : ∀ c : UInt8, legibleByte c = true →
      [c.toUInt16] = Qjs.putc c.toNat ∧ unicodeToUtf8 c.toNat = [c] ∧ c.toNat < 0xd800 := forall_byte (by decide +kernel)
  induction s with
  | nil => rfl
  | cons c s ih =>
    obtain ⟨hputc, hbytes, hlow⟩ := hascii c (h c (by simp))
    show toCString ([c.toUInt16] ++ (units s ++ u)) = c :: (s ++ toCString u)
    rw [hputc, toCString_putc_append (Or.inl hlow), hbytes, ih fun d hd => h d (by simp [hd])]
    rfl

theorem Whole.units {s : Str} (h : Legible s) : Whole (units s) := by
  intro u
  rw [toCString_units_append h, toCString_units h]

/-! ## UTF-8 -/

/-- The byte `10xxxxxx` with six bits of the code point. -/
theorem utf8Tail_continuation {y : Nat} (hy : y < 0x40) (n c : Nat) (p : Str) :
    utf8Tail (n + 1) c (UInt8.ofNat (y ||| 0x80) :: p) = utf8Tail n (c * 0x40 + y) p := by
  have hbyte : ∀ y : Fin 0x40, ¬ (UInt8.ofNat (y ||| 0x80) < 0x80 ∨ 0xc0 ≤ UInt8.ofNat (y ||| 0x80)) ∧
      (UInt8.ofNat (y ||| 0x80) &&& 0x3f).toNat = y := by decide
  obtain ⟨hrange, hbits⟩ := hbyte ⟨y, hy⟩
  simp only at hrange hbits
  rw [utf8Tail, if_neg hrange, hbits, ← Nat.shiftLeft_add_eq_or_of_lt (show y < 2 ^ 6 from hy), Nat.shiftLeft_eq]

/-- **The reader takes back what the writer wrote**, whatever follows. -/
theorem unicodeFromUtf8_unicodeToUtf8 {c : Nat} (hge : 0x80 ≤ c) (hlt : c < 0x110000) (t : Str) :
    ∃ b p, unicodeToUtf8 c = b :: p ∧ 0x80 ≤ b ∧ unicodeFromUtf8 b (p ++ t) = some (c, t) := by
  have hmod : ∀ n : Nat, n &&& 0x3f = n % 0x40 := fun n => Nat.and_two_pow_sub_one_eq_mod n 6
  unfold unicodeToUtf8
  rw [if_neg (by omega)]
  simp only [hmod, Nat.shiftRight_eq_div_pow]
  split
  · -- two bytes
    have hlead : ∀ x : Fin 0x20, 0x80 ≤ UInt8.ofNat (x ||| 0xc0) ∧ utf8Lead (UInt8.ofNat (x ||| 0xc0)) = some (1, 0x1f, 0x80) ∧
        (UInt8.ofNat (x ||| 0xc0) &&& 0x1f).toNat = x := by decide
    obtain ⟨hhigh, hread, hbits⟩ := hlead ⟨c / 2 ^ 6, by omega⟩
    simp only at hhigh hread hbits
    refine ⟨_, _, rfl, hhigh, ?_⟩
    simp only [unicodeFromUtf8, hread, hbits, Option.bind_eq_bind, Option.bind_some, List.cons_append, List.nil_append]
    rw [utf8Tail_continuation (by omega), utf8Tail, Option.bind_some, if_neg (by omega)]
    congr 2
    omega
  split
  · -- three bytes
    have hlead : ∀ x : Fin 0x10, 0x80 ≤ UInt8.ofNat (x ||| 0xe0) ∧ utf8Lead (UInt8.ofNat (x ||| 0xe0)) = some (2, 0xf, 0x800) ∧
        (UInt8.ofNat (x ||| 0xe0) &&& 0xf).toNat = x := by decide
    obtain ⟨hhigh, hread, hbits⟩ := hlead ⟨c / 2 ^ 12, by omega⟩
    simp only at hhigh hread hbits
    refine ⟨_, _, rfl, hhigh, ?_⟩
    simp only [unicodeFromUtf8, hread, hbits, Option.bind_eq_bind, Option.bind_some, List.cons_append, List.nil_append]
    rw [utf8Tail_continuation (by omega), utf8Tail_continuation (by omega), utf8Tail, Option.bind_some, if_neg (by omega)]
    congr 2
    omega
  · -- four bytes
    have hlead : ∀ x : Fin 0x8, 0x80 ≤ UInt8.ofNat (x ||| 0xf0) ∧ utf8Lead (UInt8.ofNat (x ||| 0xf0)) = some (3, 0x7, 0x10000) ∧
        (UInt8.ofNat (x ||| 0xf0) &&& 0x7).toNat = x := by decide
    obtain ⟨hhigh, hread, hbits⟩ := hlead ⟨c / 2 ^ 18, by omega⟩
    simp only at hhigh hread hbits
    refine ⟨_, _, rfl, hhigh, ?_⟩
    simp only [unicodeFromUtf8, hread, hbits, Option.bind_eq_bind, Option.bind_some, List.cons_append, List.nil_append]
    rw [utf8Tail_continuation (by omega), utf8Tail_continuation (by omega), utf8Tail_continuation (by omega), utf8Tail,
      Option.bind_some, if_neg (by omega)]
    congr 2
    omega

end MirageLambda.Qjs
