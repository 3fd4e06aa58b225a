import MirageLambda.Qjs.HostQueue
import MirageLambda.Qjs.ParseJson

/-!
# Writing JSON (quickjs.c, `JS_JSONStringify`) and truthiness

The completion expression is `JSON.stringify(globalThis.__result || null)`. Here are its two operators on values that
JSON can hold. An object lists its members in the order `Object.keys` gives them. The text of a number, `fmt`, is a
parameter; `NumberText` is what is relied on.

`orNull_text_iff`: the expression gives the text of the value itself except for `false`, the zeros and the empty string.
`stringify_ne_zero`: no text has a NUL, so none is cut off when it becomes a C string.
-/

namespace MirageLambda.Qjs
open OCaml

/-! ## `||` -/

/-- `JS_ToBoolFree` (quickjs.c:11160). -/
def JsValue.toBool : JsValue → Bool
  | .null => false
  | .bool b => b
  | .number f => !(f.isNaN || f.isZero)
  | .string s => s.length != 0
  | .array _ => true
  | .object _ => true

/-- `v || null` -/
def JsValue.orNull (v : JsValue) : JsValue := if v.toBool then v else .null

/-! ## `JSON.stringify` -/

/-- `\u%04x` -/
def unicodeEscape (c : Nat) : Str :=
  [chr '\\', chr 'u', hexDigit (c / 4096 % 16), hexDigit (c / 256 % 16), hexDigit (c / 16 % 16), hexDigit (c % 16)]

/-- One character in `JS_ToQuotedString` (quickjs.c:49722-49757). -/
def quoteChar (c : Nat) : List UInt16 :=
  if c = 9 then units (str "\\t")
  else if c = 13 then units (str "\\r")
  else if c = 10 then units (str "\\n")
  else if c = 8 then units (str "\\b")
  else if c = 12 then units (str "\\f")
  else if c = 34 then units (str "\\\"")
  else if c = 92 then units (str "\\\\")
  else if c < 32 ∨ (0xd800 ≤ c ∧ c < 0xe000) then units (unicodeEscape c)
  else putc c

/-- `JS_ToQuotedString` (quickjs.c:49706). -/
def toQuotedString (s : List UInt16) : List UInt16 :=
  units (str "\"") ++ (codePoints s).flatMap quoteChar ++ units (str "\"")

mutual
/-- `js_json_to_str` (quickjs.c:49832), without indentation. -/
def jsonToStr (fmt : Float64 → Str) : JsValue → List UInt16
  | .null => units (str "null")
  | .bool b => units (if b then str "true" else str "false")
  | .number f => units (if f.isFinite then fmt f else str "null")
  | .string s => toQuotedString s
  | .array xs => units (str "[") ++ elementsToStr fmt 0 xs ++ units (str "]")
  | .object ms => units [123] ++ membersToStr fmt 0 ms ++ units [125]

/-- The loop over the elements, from element `i` on. -/
def elementsToStr (fmt : Float64 → Str) : Nat → List JsValue → List UInt16
  | _, [] => []
  | i, x :: xs => (if i > 0 then units (str ",") else []) ++ jsonToStr fmt x ++ elementsToStr fmt (i + 1) xs

/-- The loop over the members, from member `i` on. -/
def membersToStr (fmt : Float64 → Str) : Nat → List (List UInt16 × JsValue) → List UInt16
  | _, [] => []
  | i, (name, v) :: ms =>
    (if i > 0 then units (str ",") else []) ++ toQuotedString name ++ units (str ":") ++ jsonToStr fmt v ++
      membersToStr fmt (i + 1) ms
end

/-- The bytes of `JSON.stringify(v)`. -/
def stringify (fmt : Float64 → Str) (v : JsValue) : Str := toCString (jsonToStr fmt v)

/-- What JavaScript's number to string conversion guarantees: printable characters, and `0` for both zeros. -/
structure NumberText (fmt : Float64 → Str) : Prop where
  legible : ∀ f, Legible (fmt f)
  zero : ∀ f, f.isZero = true → fmt f = str "0"

/-! ## The texts have no NUL -/

def NoNul (s : List UInt16) : Prop := ∀ u ∈ s, u ≠ 0

theorem noNul_append {s t : List UInt16} : NoNul (s ++ t) ↔ NoNul s ∧ NoNul t := List.forall_mem_append

theorem noNul_units {s : Str} (h : 0 ∉ s) : NoNul (units s) := by
  have hbyte : ∀ c : UInt8, c ≠ 0 → c.toUInt16 ≠ 0 := forall_byte (by decide +kernel)
  intro u hu
  obtain ⟨c, hc, rfl⟩ := List.mem_map.1 hu
  exact hbyte c fun hz => h (hz ▸ hc)

theorem hexDigit_ne_zero {d : Nat} (h : d < 16) : hexDigit d ≠ 0 := by
  interval_cases d <;> decide

theorem codePoints_lt (s : List UInt16) : ∀ c ∈ codePoints s, c < 0x110000 := by
  fun_induction codePoints s with
  | case1 => simp
  | case2 c =>
    intro x hx
    obtain rfl := List.mem_singleton.1 hx
    have := c.toNat_lt
    omega
  | case3 c d s hpair ih =>
    intro x hx
    rcases List.mem_cons.1 hx with hx | hx
    · have hc : c.toNat < 0xdc00 := UInt16.lt_iff_toNat_lt.1 hpair.1.2
      have hd : d.toNat < 0xe000 := UInt16.lt_iff_toNat_lt.1 hpair.2.2
      omega
    · exact ih x hx
  | case4 c d s hpair ih =>
    intro x hx
    rcases List.mem_cons.1 hx with rfl | hx
    · have := c.toNat_lt
      omega
    · exact ih x hx

theorem codePoints_ne_zero {s : List UInt16} (h : NoNul s) : ∀ c ∈ codePoints s, c ≠ 0 := by
  have hunit : ∀ c : UInt16, c ≠ 0 → c.toNat ≠ 0 := fun c hc hz => hc (UInt16.toNat_inj.1 hz)
  fun_induction codePoints s with
  | case1 => simp
  | case2 c =>
    intro x hx
    obtain rfl := List.mem_singleton.1 hx
    exact hunit c (h c (by simp))
  | case3 c d s hpair ih =>
    intro x hx
    rcases List.mem_cons.1 hx with hx | hx
    · omega
    · exact ih (fun u hu => h u (by simp [hu])) x hx
  | case4 c d s hpair ih =>
    intro x hx
    rcases List.mem_cons.1 hx with rfl | hx
    · exact hunit c (h c (by simp))
    · exact ih (fun u hu => h u (List.mem_cons_of_mem _ hu)) x hx

theorem noNul_putc {c : Nat} (hpos : c ≠ 0) (hlt : c < 0x110000) : NoNul (putc c) := by
  have hunit : ∀ n : Nat, n ≠ 0 → n < 0x10000 → UInt16.ofNat n ≠ 0 := by
    intro n hn hlt hz
    have := congrArg UInt16.toNat hz
    rw [UInt16.toNat_ofNat_of_lt' hlt] at this
    exact hn this
  intro u hu
  unfold putc at hu
  split at hu
  · have hhi : (c - 0x10000) >>> 10 < 0x400 := by
      rw [Nat.shiftRight_eq_div_pow]
      omega
    have hlo : c &&& 0x3ff < 0x400 := Nat.lt_succ_of_le Nat.and_le_right
    rcases List.mem_cons.1 hu with rfl | hu
    · exact hunit _ (by omega) (by omega)
    · obtain rfl := List.mem_singleton.1 hu
      exact hunit _ (by omega) (by omega)
  · obtain rfl := List.mem_singleton.1 hu
    exact hunit c hpos (by omega)

theorem noNul_quoteChar {c : Nat} (hlt : c < 0x110000) : NoNul (quoteChar c) := by
  have hescape : NoNul (units (unicodeEscape c)) := by
    refine noNul_units ?_
    simp only [unicodeEscape, List.mem_cons, List.not_mem_nil, or_false, not_or]
    exact ⟨by decide, by decide, (hexDigit_ne_zero (by omega)).symm, (hexDigit_ne_zero (by omega)).symm,
      (hexDigit_ne_zero (by omega)).symm, (hexDigit_ne_zero (by omega)).symm⟩
  unfold quoteChar
  repeat' split
  all_goals first
    | exact hescape
    | exact noNul_units (by decide)
    | exact noNul_putc (by omega) hlt

theorem noNul_toQuotedString (s : List UInt16) : NoNul (toQuotedString s) := by
  have hquote : NoNul (units (str "\"")) := noNul_units (by decide)
  refine noNul_append.2 ⟨noNul_append.2 ⟨hquote, ?_⟩, hquote⟩
  intro u hu
  obtain ⟨c, hc, hu⟩ := List.mem_flatMap.1 hu
  exact noNul_quoteChar (codePoints_lt s c hc) u hu

theorem noNul_comma (i : Nat) : NoNul (if i > 0 then units (str ",") else []) := by
  split
  · exact noNul_units (by decide)
  · exact fun _ hu => absurd hu List.not_mem_nil

section
variable {fmt : Float64 → Str}

theorem NumberText.not_mem_zero (h : NumberText fmt) (f : Float64) : 0 ∉ fmt f :=
  fun hc => absurd (h.legible f 0 hc) (by decide)

mutual
theorem noNul_jsonToStr (h : NumberText fmt) : ∀ v, NoNul (jsonToStr fmt v)
  | .null => noNul_units (by decide)
  | .bool true => noNul_units (by decide)
  | .bool false => noNul_units (by decide)
  | .number f => by
    rw [jsonToStr]
    split
    · exact noNul_units (h.not_mem_zero f)
    · exact noNul_units (by decide)
  | .string s => noNul_toQuotedString s
  | .array xs => noNul_append.2 ⟨noNul_append.2 ⟨noNul_units (by decide), noNul_elementsToStr h 0 xs⟩, noNul_units (by decide)⟩
  | .object ms => noNul_append.2 ⟨noNul_append.2 ⟨noNul_units (by decide), noNul_membersToStr h 0 ms⟩, noNul_units (by decide)⟩

theorem noNul_elementsToStr (h : NumberText fmt) : ∀ i xs, NoNul (elementsToStr fmt i xs)
  | _, [] => fun _ hu => absurd hu List.not_mem_nil
  | i, x :: xs =>
    noNul_append.2 ⟨noNul_append.2 ⟨noNul_comma i, noNul_jsonToStr h x⟩, noNul_elementsToStr h (i + 1) xs⟩

theorem noNul_membersToStr (h : NumberText fmt) : ∀ i ms, NoNul (membersToStr fmt i ms)
  | _, [] => fun _ hu => absurd hu List.not_mem_nil
  | i, (name, v) :: ms =>
    noNul_append.2 ⟨noNul_append.2 ⟨noNul_append.2 ⟨noNul_append.2 ⟨noNul_comma i, noNul_toQuotedString name⟩,
      noNul_units (by decide)⟩, noNul_jsonToStr h v⟩, noNul_membersToStr h (i + 1) ms⟩
end

theorem unicodeToUtf8_ne_zero {c : Nat} (hc : c ≠ 0) : ∀ b ∈ unicodeToUtf8 c, b ≠ 0 := by
  have hlead : ∀ x : UInt8, x ||| 0xc0 ≠ 0 ∧ x ||| 0xe0 ≠ 0 ∧ x ||| 0xf0 ≠ 0 ∧ x ||| 0x80 ≠ 0 :=
    forall_byte (by decide +kernel)
  unfold unicodeToUtf8
  split
  · rename_i hlt
    intro b hb hz
    rw [List.mem_singleton.1 hb] at hz
    have := congrArg UInt8.toNat hz
    rw [UInt8.toNat_ofNat_of_lt' (show c < 256 by omega)] at this
    exact hc this
  -- each byte of a longer sequence has its highest bit set
  repeat' split
  all_goals
    simp only [List.forall_mem_cons, UInt8.ofNat_or]
    simp [hlead]

/-- **No text of a value has a NUL.** -/
theorem stringify_ne_zero (h : NumberText fmt) (v : JsValue) : ∀ c ∈ stringify fmt v, c ≠ 0 := by
  intro c hc
  obtain ⟨x, hx, hc⟩ := List.mem_flatMap.1 hc
  exact unicodeToUtf8_ne_zero (codePoints_ne_zero (noNul_jsonToStr h v) x hx) c hc

/-! ## The completion expression -/

/-- The values that `|| null` replaces, `null` and `NaN` apart: their text is not `null`. -/
def JsValue.Dropped : JsValue → Prop
  | .bool b => b = false
  | .number f => f.isZero = true
  | .string s => s = []
  | _ => False

instance : DecidablePred JsValue.Dropped
  | .null => .isFalse id
  | .bool b => inferInstanceAs (Decidable (b = false))
  | .number f => inferInstanceAs (Decidable (f.isZero = true))
  | .string s => inferInstanceAs (Decidable (s = []))
  | .array _ => .isFalse id
  | .object _ => .isFalse id

theorem stringify_null : stringify fmt .null = str "null" :=
  toCString_units (by decide : Legible (str "null"))

theorem stringify_false : stringify fmt (.bool false) = str "false" :=
  toCString_units (by decide : Legible (str "false"))

theorem stringify_empty : stringify fmt (.string []) = str "\"\"" :=
  toCString_units (by decide : Legible (str "\"\""))

theorem stringify_number (h : NumberText fmt) (f : Float64) :
    stringify fmt (.number f) = if f.isFinite then fmt f else str "null" := by
  unfold stringify jsonToStr
  split
  · exact toCString_units (h.legible f)
  · exact toCString_units (by decide)

/-- **What the completion expression keeps.** -/
theorem orNull_text_iff (h : NumberText fmt) (v : JsValue) : stringify fmt v.orNull = stringify fmt v ↔ ¬ v.Dropped := by
  cases v with
  | null => exact iff_of_true rfl id
  | bool b =>
    cases b with
    | true => exact iff_of_true rfl Bool.false_ne_true.symm
    | false =>
      refine iff_of_false ?_ (not_not.2 rfl)
      show stringify fmt .null ≠ _
      rw [stringify_null, stringify_false]
      decide
  | number f =>
    show stringify fmt (if !(f.isNaN || f.isZero) then .number f else .null) = stringify fmt (.number f) ↔
      ¬ f.isZero = true
    by_cases hzero : f.isZero = true
    · have hfinite : f.isFinite = true := by
        simp only [Float64.isZero, Bool.and_eq_true, beq_iff_eq] at hzero
        simp [Float64.isFinite, hzero.1]
      refine iff_of_false ?_ (not_not.2 hzero)
      rw [hzero, Bool.or_true, stringify_number h, if_pos hfinite, h.zero f hzero]
      show stringify fmt .null ≠ _
      rw [stringify_null]
      decide
    by_cases hnan : f.isNaN = true
    · -- `NaN` has the text `null`, as what replaces it
      have hfinite : f.isFinite = false := by
        simp only [Float64.isNaN, Bool.and_eq_true, beq_iff_eq] at hnan
        simp [Float64.isFinite, hnan.1]
      refine iff_of_true ?_ hzero
      rw [hnan, stringify_number h, hfinite]
      exact stringify_null
    · rw [Bool.not_eq_true] at hzero hnan
      simp [hzero, hnan]
  | string s =>
    cases s with
    | nil =>
      refine iff_of_false ?_ (not_not.2 rfl)
      show stringify fmt .null ≠ _
      rw [stringify_null, stringify_empty]
      decide
    | cons c s => exact iff_of_true rfl (List.cons_ne_nil c s)
  | array xs => exact iff_of_true rfl id
  | object ms => exact iff_of_true rfl id

end

end MirageLambda.Qjs
