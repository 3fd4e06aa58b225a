import MirageLambda.Qjs.Utf16

/-!
# Reading back what is written (quickjs.c, `JS_JSONStringify` and `JS_ParseJSON`)

Every value that leaves an engine goes through the one, every answer that comes in through the other.
`parseJSON_stringify`: the text of a value is read as what JSON keeps of it, `kept`: numbers that are not finite become
`null`, and the sign of a zero is lost. All else comes back, strings with unmatched surrogates included. So two values
have the same text exactly when JSON keeps the same of both.
-/

namespace MirageLambda.Qjs
open OCaml

/-! ## Strings -/

theorem scalar_of_plain {c : Nat} (hlt : c < 0x110000) (h : ¬ (c < 32 ∨ 0xd800 ≤ c ∧ c < 0xe000)) : Scalar c := by
  unfold Scalar
  omega

theorem unicodeEscape_legible (c : Nat) : Legible (unicodeEscape c) := by
  have hdigit : ∀ d : Fin 16, legibleByte (hexDigit d) = true := by decide
  simp only [Legible, unicodeEscape, List.forall_mem_cons]
  exact ⟨rfl, rfl, hdigit ⟨c / 4096 % 16, by omega⟩, hdigit ⟨c / 256 % 16, by omega⟩, hdigit ⟨c / 16 % 16, by omega⟩,
    hdigit ⟨c % 16, by omega⟩, List.forall_mem_nil _⟩

theorem whole_quoteChar {c : Nat} (hlt : c < 0x110000) : Whole (quoteChar c) := by
  have hescape := Whole.units (unicodeEscape_legible c)
  unfold quoteChar
  repeat' split
  all_goals first
    | exact hescape
    | exact Whole.units (by decide)
    | exact Whole.putc (scalar_of_plain hlt ‹_›)

theorem parseDigit_hexDigit {d : Nat} (h : d < 16) : parseDigit (hexDigit d) = some d := by
  interval_cases d <;> decide

/-- The four digits of `\u`. -/
theorem parseEscape_unicodeEscape {c : Nat} (hlt : c < 0x10000) (t : Str) :
    parseEscape ((unicodeEscape c).tail ++ t) = some (c, t) := by
  have hor : ∀ a d : Nat, d < 16 → a <<< 4 ||| d = a * 16 + d := by
    intro a d hd
    rw [← Nat.shiftLeft_add_eq_or_of_lt (show d < 2 ^ 4 from hd), Nat.shiftLeft_eq]
  have hmod : ∀ n : Nat, n % 16 < 16 := fun n => Nat.mod_lt n (by decide)
  simp only [unicodeEscape, List.tail_cons, List.cons_append, List.nil_append, parseEscape, if_true, hexDigits,
    parseDigit_hexDigit (hmod _), hor _ _ (hmod _)]
  congr 2
  omega

/-- The bytes of one character: the first one neither ends the string nor stops the scan, and the character is read. -/
theorem parseChar_quoteChar {c : Nat} (hlt : c < 0x110000) (t : Str) : ∃ b p, toCString (quoteChar c) = b :: p ∧
    b ≠ chr '"' ∧ ¬ b < 0x20 ∧ parseChar b (p ++ t) = some (c, t) := by
  have hescaped : ∀ a : UInt8, Legible [chr '\\', a] → a ≠ chr 'u' → escapeCode a = some c →
      ∃ b p, toCString (units [chr '\\', a]) = b :: p ∧ b ≠ chr '"' ∧ ¬ b < 0x20 ∧ parseChar b (p ++ t) = some (c, t) := by
    intro a hlegible hu ha
    refine ⟨chr '\\', [a], toCString_units hlegible, by decide, by decide, ?_⟩
    rw [parseChar, if_pos rfl, List.singleton_append, parseEscape, if_neg hu, ha]
    rfl
  unfold quoteChar
  split
  · exact hescaped (chr 't') (by decide) (by decide) (by subst c; rfl)
  split
  · exact hescaped (chr 'r') (by decide) (by decide) (by subst c; rfl)
  split
  · exact hescaped (chr 'n') (by decide) (by decide) (by subst c; rfl)
  split
  · exact hescaped (chr 'b') (by decide) (by decide) (by subst c; rfl)
  split
  · exact hescaped (chr 'f') (by decide) (by decide) (by subst c; rfl)
  split
  · exact hescaped (chr '"') (by decide) (by decide) (by subst c; rfl)
  split
  · exact hescaped (chr '\\') (by decide) (by decide) (by subst c; rfl)
  split
  · rename_i hescape
    refine ⟨chr '\\', (unicodeEscape c).tail, toCString_units (unicodeEscape_legible c), by decide, by decide, ?_⟩
    rw [parseChar, if_pos rfl, parseEscape_unicodeEscape (by omega)]
  · rename_i hquote hslash hplain
    rw [toCString_putc (scalar_of_plain hlt hplain)]
    by_cases hascii : c < 0x80
    · have hbyte : (UInt8.ofNat c).toNat = c := UInt8.toNat_ofNat_of_lt' (show c < 256 by omega)
      have hne : ∀ d : UInt8, c ≠ d.toNat → UInt8.ofNat c ≠ d := fun d hd heq => hd (by rw [← heq, hbyte])
      refine ⟨UInt8.ofNat c, [], if_pos hascii, hne _ (by exact hquote), ?_, ?_⟩
      · rw [UInt8.lt_iff_toNat_lt, hbyte]
        show ¬ c < 32
        omega
      · have hlow : ¬ 0x80 ≤ UInt8.ofNat c := by
          rw [UInt8.le_iff_toNat_le, hbyte]
          show ¬ 128 ≤ c
          omega
        rw [parseChar, if_neg (hne _ (by exact hslash)), if_neg hlow, hbyte]
        rfl
    · obtain ⟨b, p, hbytes, hhigh, hread⟩ := unicodeFromUtf8_unicodeToUtf8 (by omega) hlt t
      have hbranch : ∀ b : UInt8, 0x80 ≤ b → b ≠ chr '"' ∧ ¬ b < 0x20 ∧ b ≠ chr '\\' := forall_byte (by decide +kernel)
      obtain ⟨hq, hlo, hs⟩ := hbranch b hhigh
      refine ⟨b, p, hbytes, hq, hlo, ?_⟩
      rw [parseChar, if_neg hs, if_pos hhigh, hread]
      exact if_neg (by omega)

theorem parseString_quoteChar {c : Nat} (hlt : c < 0x110000) (n : Nat) (t : Str) :
    parseString (n + 1) (toCString (quoteChar c) ++ t) = (parseString n t).map fun r => (putc c ++ r.1, r.2) := by
  obtain ⟨b, p, hbytes, hquote, hcontrol, hread⟩ := parseChar_quoteChar hlt t
  rw [hbytes, List.cons_append, parseString, if_neg hquote, if_neg hcontrol, hread]
  cases hrest : parseString n t <;> simp [hrest]

/-- The text of a string. -/
theorem toCString_toQuotedString (s : List UInt16) :
    toCString (toQuotedString s) =
      chr '"' :: ((codePoints s).flatMap (fun c => toCString (quoteChar c)) ++ [chr '"']) := by
  have hquote : Legible (str "\"") := by decide
  have hchars : ∀ c ∈ codePoints s, Whole (quoteChar c) := fun c hc => whole_quoteChar (codePoints_lt s c hc)
  rw [toQuotedString, List.append_assoc, toCString_units_append hquote, Whole.flatMap hchars, toCString_flatMap hchars,
    toCString_units hquote]
  rfl

theorem whole_toQuotedString (s : List UInt16) : Whole (toQuotedString s) := by
  have hquote : Whole (units (str "\"")) := Whole.units (by decide)
  exact (hquote.append (Whole.flatMap fun c hc => whole_quoteChar (codePoints_lt s c hc))).append hquote

theorem parseString_quoted {cs : List Nat} (h : ∀ c ∈ cs, c < 0x110000) {n : Nat} (hn : cs.length < n) (t : Str) :
    parseString n (cs.flatMap (fun c => toCString (quoteChar c)) ++ chr '"' :: t) = some (cs.flatMap putc, t) := by
  induction cs generalizing n with
  | nil =>
    obtain ⟨n, rfl⟩ : ∃ m, n = m + 1 := ⟨n - 1, by simp at hn; omega⟩
    rfl
  | cons c cs ih =>
    simp only [List.length_cons] at hn
    obtain ⟨n, rfl⟩ : ∃ m, n = m + 1 := ⟨n - 1, by omega⟩
    rw [List.flatMap_cons, List.append_assoc, parseString_quoteChar (h c (by simp)),
      ih (fun d hd => h d (by simp [hd])) (by omega)]
    rfl

theorem length_le_quoted {cs : List Nat} (h : ∀ c ∈ cs, c < 0x110000) :
    cs.length ≤ (cs.flatMap fun c => toCString (quoteChar c)).length := by
  induction cs with
  | nil => exact le_refl 0
  | cons c cs ih =>
    obtain ⟨b, p, hbytes, -⟩ := parseChar_quoteChar (h c (by simp)) []
    have hrest := ih fun d hd => h d (by simp [hd])
    rw [List.flatMap_cons, List.length_append, hbytes, List.length_cons, List.length_cons]
    omega

section
variable (atod : Str → Float64)

/-- **A quoted string is one token**, whatever follows. -/
theorem nextToken_toQuotedString (s : List UInt16) (t : Str) :
    nextToken atod (toCString (toQuotedString s) ++ t) = some (.string s, t) := by
  have hlen := length_le_quoted (codePoints_lt s)
  rw [toCString_toQuotedString, List.cons_append, nextToken, if_pos rfl, List.append_assoc, List.singleton_append,
    parseString_quoted (codePoints_lt s) (by rw [List.length_append, List.length_cons]; omega), flatMap_putc_codePoints]
  rfl

end

/-! ## Numbers -/

def Digits (D : Str) : Prop := ∀ c ∈ D, isDigit c = true

/-- A number of RFC 8259: an optional minus, an integer without leading zeros, a fraction, an exponent. -/
def IsNumber (s : Str) : Prop :=
  ∃ sign d D frac exp, s = sign ++ (d :: D ++ (frac ++ exp)) ∧ (sign = [] ∨ sign = [chr '-']) ∧ Digits (d :: D) ∧
    (d = chr '0' → D = []) ∧ (frac = [] ∨ ∃ e E, frac = chr '.' :: e :: E ∧ Digits (e :: E)) ∧
    (exp = [] ∨ ∃ x g e E, exp = x :: (g ++ e :: E) ∧ (x = chr 'e' ∨ x = chr 'E') ∧
      (g = [] ∨ g = [chr '+'] ∨ g = [chr '-']) ∧ Digits (e :: E))

theorem parseDigits1_append {e : UInt8} {E t : Str} (h : Digits (e :: E)) (ht : isDigit (peek t) = false) :
    parseDigits1 (e :: E ++ t) = some t := by
  have hfirst : isDigit (peek (e :: E ++ t)) = true := h e (by simp)
  rw [parseDigits1, if_pos hfirst, dropWhile_isDigit h ht]

theorem sign_not_digit {c : UInt8} (h : isDigit c = true) : ¬ (c = chr '+' ∨ c = chr '-') := by
  have hbytes : ∀ c : UInt8, isDigit c = true → ¬ (c = chr '+' ∨ c = chr '-') := forall_byte (by decide +kernel)
  exact hbytes c h

theorem parseExponent_append {exp t : Str} (h : exp = [] ∨ ∃ x g e E, exp = x :: (g ++ e :: E) ∧ (x = chr 'e' ∨ x = chr 'E') ∧
    (g = [] ∨ g = [chr '+'] ∨ g = [chr '-']) ∧ Digits (e :: E)) (ht : NumberEnds t) : parseExponent (exp ++ t) = some t := by
  obtain ⟨hdigit, -, he, hE⟩ := ht
  obtain rfl | ⟨x, g, e, E, rfl, hx, hg, hdigits⟩ := h
  · exact if_neg (not_or.2 ⟨he, hE⟩)
  · have hrest := parseDigits1_append hdigits hdigit
    have hx' : peek (x :: (g ++ e :: E) ++ t) = chr 'e' ∨ peek (x :: (g ++ e :: E) ++ t) = chr 'E' := hx
    rw [parseExponent, if_pos hx']
    show parseDigits1 (if peek (g ++ e :: E ++ t) = chr '+' ∨ peek (g ++ e :: E ++ t) = chr '-'
      then (g ++ e :: E ++ t).drop 1 else g ++ e :: E ++ t) = some t
    obtain rfl | rfl | rfl := hg
    · have hdigit : ¬ (peek ([] ++ e :: E ++ t) = chr '+' ∨ peek ([] ++ e :: E ++ t) = chr '-') :=
        sign_not_digit (hdigits e (by simp))
      rw [if_neg hdigit]
      exact hrest
    · exact hrest
    · exact hrest

/-- The text of a number ends where it should. -/
theorem parseNumber_append (atod : Str → Float64) {s t : Str} (h : IsNumber s) (ht : NumberEnds t) :
    parseNumber atod (s ++ t) = some (atod s, t) := by
  obtain ⟨sign, d, D, frac, exp, hs, hsign, hD, hzero, hfrac, hexp⟩ := h
  have hd : isDigit d = true := hD d (by simp)
  have hexponent := parseExponent_append hexp ht
  have hexpStart : isDigit (peek (exp ++ t)) = false ∧ peek (exp ++ t) ≠ chr '.' := by
    obtain rfl | ⟨x, g, e, E, rfl, hx, -⟩ := hexp
    · exact ⟨ht.1, ht.2.1⟩
    · have hletter : ∀ x : UInt8, x = chr 'e' ∨ x = chr 'E' → isDigit x = false ∧ x ≠ chr '.' :=
        forall_byte (by decide +kernel)
      exact hletter x hx
  have hfraction : parseFraction (frac ++ (exp ++ t)) = some (exp ++ t) := by
    obtain rfl | ⟨e, E, rfl, hdigits⟩ := hfrac
    · exact if_neg hexpStart.2
    · exact (if_pos rfl).trans (parseDigits1_append hdigits hexpStart.1)
  have hfracStart : isDigit (peek (frac ++ (exp ++ t))) = false := by
    obtain rfl | ⟨e, E, rfl, -⟩ := hfrac
    · exact hexpStart.1
    · rfl
  have htext : s ++ t = sign ++ (d :: D ++ (frac ++ (exp ++ t))) := by simp [hs]
  have hstart : (if peek (s ++ t) = chr '+' ∨ peek (s ++ t) = chr '-' then (s ++ t).drop 1 else s ++ t) =
      d :: D ++ (frac ++ (exp ++ t)) := by
    rw [htext]
    obtain rfl | rfl := hsign
    · exact if_neg (sign_not_digit hd)
    · exact if_pos (Or.inr rfl)
  have hdigit : isDigit (peek (d :: D ++ (frac ++ (exp ++ t)))) = true := hd
  have hnext : ¬ (peek (d :: D ++ (frac ++ (exp ++ t))) = chr '0' ∧
      isDigit (peek ((d :: D ++ (frac ++ (exp ++ t))).drop 1)) = true) := by
    rintro ⟨hz, hdigit⟩
    rw [hzero hz] at hdigit
    exact absurd (hdigit.symm.trans hfracStart) (by decide)
  have hlexeme : (s ++ t).take ((s ++ t).length - t.length) = s := by simp
  rw [parseNumber]
  simp only [hstart, hdigit, Bool.not_true, Bool.false_eq_true, if_false, if_neg hnext, dropWhile_isDigit hD hfracStart,
    hfraction]
  show (parseExponent (exp ++ t)).bind _ = _
  rw [hexponent]
  exact congrArg (fun s => some (atod s, t)) hlexeme

theorem nextToken_number (atod : Str → Float64) {s t : Str} (h : IsNumber s) (ht : NumberEnds t) :
    nextToken atod (s ++ t) = some (.number (atod s), t) := by
  have hnumber := parseNumber_append atod h ht
  have hbranch : ∀ c : UInt8, c = chr '-' ∨ isDigit c = true →
      c ≠ chr '"' ∧ ¬ (c = 13 ∨ c = 10 ∨ c = 32 ∨ c = 9) ∧ isIdentFirst c = false := forall_byte (by decide +kernel)
  obtain ⟨c, r, rfl, hfirst⟩ : ∃ c r, s = c :: r ∧ (c = chr '-' ∨ isDigit c = true) := by
    obtain ⟨sign, d, D, frac, exp, rfl, rfl | rfl, hD, -⟩ := h
    · exact ⟨d, _, rfl, Or.inr (hD d (by simp))⟩
    · exact ⟨chr '-', _, rfl, Or.inl rfl⟩
  obtain ⟨hquote, hspace, hident⟩ := hbranch c hfirst
  rw [List.cons_append] at hnumber ⊢
  rw [nextToken, if_neg hquote, if_neg hspace, if_neg (by simp [hident]), if_pos hfirst, hnumber]
  rfl

theorem IsNumber.legible {s : Str} (h : IsNumber s) : Legible s := by
  have hbyte : ∀ c : UInt8, isDigit c = true → legibleByte c = true := forall_byte (by decide +kernel)
  have hdigits : ∀ {D : Str}, Digits D → Legible D := fun hD c hc => hbyte c (hD c hc)
  obtain ⟨sign, d, D, frac, exp, rfl, hsign, hD, -, hfrac, hexp⟩ := h
  simp only [legible_append]
  refine ⟨?_, hdigits hD, ?_, ?_⟩
  · obtain rfl | rfl := hsign
    · decide
    · decide
  · obtain rfl | ⟨e, E, rfl, hE⟩ := hfrac
    · decide
    · exact List.forall_mem_cons.2 ⟨rfl, hdigits hE⟩
  · obtain rfl | ⟨x, g, e, E, rfl, hx, hg, hE⟩ := hexp
    · decide
    refine List.forall_mem_cons.2 ⟨?_, legible_append.2 ⟨?_, hdigits hE⟩⟩
    · obtain rfl | rfl := hx
      · rfl
      · rfl
    · obtain rfl | rfl | rfl := hg
      · decide
      · decide
      · decide

/-! ## What the text of a value keeps -/

/-- The zeros have one text. -/
def unsignedZero (f : Float64) : Float64 := if f.isZero then ⟨0⟩ else f

mutual
/-- What JSON keeps of a value. -/
def JsValue.kept : JsValue → JsValue
  | .null => .null
  | .bool b => .bool b
  | .number f => if f.isFinite then .number (unsignedZero f) else .null
  | .string s => .string s
  | .array xs => .array (keptElements xs)
  | .object ms => .object (keptMembers ms)

def keptElements : List JsValue → List JsValue
  | [] => []
  | x :: xs => x.kept :: keptElements xs

def keptMembers : List (List UInt16 × JsValue) → List (List UInt16 × JsValue)
  | [] => []
  | (name, v) :: ms => (name, v.kept) :: keptMembers ms
end

mutual
/-- A value as the engine holds them: the names of an object are distinct. `P` holds of the numbers. -/
def JsValue.Sound (P : Float64 → Prop) : JsValue → Prop
  | .number f => P f
  | .array xs => SoundElements P xs
  | .object ms => (ms.map Prod.fst).Nodup ∧ SoundMembers P ms
  | _ => True

def SoundElements (P : Float64 → Prop) : List JsValue → Prop
  | [] => True
  | x :: xs => x.Sound P ∧ SoundElements P xs

def SoundMembers (P : Float64 → Prop) : List (List UInt16 × JsValue) → Prop
  | [] => True
  | (_, v) :: ms => v.Sound P ∧ SoundMembers P ms
end

/-- What the two conversions do to a finite number: the text is a number, and it is read as the number it is for. -/
def Reads (fmt : Float64 → Str) (atod : Str → Float64) (f : Float64) : Prop :=
  f.isFinite = true → IsNumber (fmt f) ∧ atod (fmt f) = unsignedZero f

/-! ## The texts of values -/

section
variable {fmt : Float64 → Str} {atod : Str → Float64}

theorem whole_comma (i : Nat) : Whole (if i > 0 then units (str ",") else []) := by
  split
  · exact Whole.units (by decide)
  · exact Whole.nil

mutual
theorem whole_jsonToStr : ∀ v : JsValue, v.Sound (Reads fmt atod) → Whole (jsonToStr fmt v)
  | .null, _ => Whole.units (by decide)
  | .bool true, _ => Whole.units (by decide)
  | .bool false, _ => Whole.units (by decide)
  | .number f, h => by
    rw [jsonToStr]
    split
    · rename_i hfinite
      exact Whole.units (h hfinite).1.legible
    · exact Whole.units (by decide)
  | .string s, _ => whole_toQuotedString s
  | .array xs, h => ((Whole.units (by decide)).append (whole_elementsToStr 0 xs h)).append (Whole.units (by decide))
  | .object ms, h => ((Whole.units (by decide)).append (whole_membersToStr 0 ms h.2)).append (Whole.units (by decide))

theorem whole_elementsToStr : ∀ (i : Nat) (xs : List JsValue), SoundElements (Reads fmt atod) xs →
    Whole (elementsToStr fmt i xs)
  | _, [], _ => Whole.nil
  | i, x :: xs, h => ((whole_comma i).append (whole_jsonToStr x h.1)).append (whole_elementsToStr (i + 1) xs h.2)

theorem whole_membersToStr : ∀ (i : Nat) (ms : List (List UInt16 × JsValue)), SoundMembers (Reads fmt atod) ms →
    Whole (membersToStr fmt i ms)
  | _, [], _ => Whole.nil
  | i, (name, v) :: ms, h =>
    ((((whole_comma i).append (whole_toQuotedString name)).append (Whole.units (by decide))).append
      (whole_jsonToStr v h.1)).append (whole_membersToStr (i + 1) ms h.2)
end

/-- Elements with commas between them. -/
def elementsText (fmt : Float64 → Str) (xs : List JsValue) : Str := toCString (elementsToStr fmt 0 xs)

def membersText (fmt : Float64 → Str) (ms : List (List UInt16 × JsValue)) : Str := toCString (membersToStr fmt 0 ms)

theorem elementsToStr_succ (i : Nat) (xs : List JsValue) : elementsToStr fmt (i + 1) xs = elementsToStr fmt 1 xs := by
  induction xs generalizing i with
  | nil => rfl
  | cons x xs ih =>
    rw [elementsToStr, elementsToStr, ih (i + 1), ih 1]
    rfl

theorem membersToStr_succ (i : Nat) (ms : List (List UInt16 × JsValue)) :
    membersToStr fmt (i + 1) ms = membersToStr fmt 1 ms := by
  induction ms generalizing i with
  | nil => rfl
  | cons m ms ih =>
    rw [membersToStr, membersToStr, ih (i + 1), ih 1]
    rfl

theorem stringify_array {xs : List JsValue} (h : SoundElements (Reads fmt atod) xs) :
    stringify fmt (.array xs) = chr '[' :: (elementsText fmt xs ++ [chr ']']) := by
  rw [stringify, jsonToStr, List.append_assoc, toCString_units_append (by decide), whole_elementsToStr 0 xs h,
    toCString_units (by decide)]
  rfl

theorem stringify_object {ms : List (List UInt16 × JsValue)} (h : SoundMembers (Reads fmt atod) ms) :
    stringify fmt (.object ms) = 123 :: (membersText fmt ms ++ [125]) := by
  rw [stringify, jsonToStr, List.append_assoc, toCString_units_append (by decide), whole_membersToStr 0 ms h,
    toCString_units (by decide)]
  rfl

theorem elementsText_singleton (x : JsValue) : elementsText fmt [x] = stringify fmt x := by
  rw [elementsText, elementsToStr, elementsToStr, List.append_nil]
  rfl

theorem elementsText_cons_cons {x : JsValue} (hx : x.Sound (Reads fmt atod)) (y : JsValue) (xs : List JsValue) :
    elementsText fmt (x :: y :: xs) = stringify fmt x ++ chr ',' :: elementsText fmt (y :: xs) := by
  have hrest : elementsToStr fmt 1 (y :: xs) = units (str ",") ++ elementsToStr fmt 0 (y :: xs) := by
    rw [elementsToStr, elementsToStr, elementsToStr_succ 1, List.append_assoc, List.append_assoc]
    rfl
  show toCString ([] ++ jsonToStr fmt x ++ elementsToStr fmt 1 (y :: xs)) = _
  rw [List.nil_append, whole_jsonToStr x hx, hrest, toCString_units_append (by decide)]
  rfl

theorem membersText_singleton (name : List UInt16) (v : JsValue) :
    membersText fmt [(name, v)] = toCString (toQuotedString name) ++ chr ':' :: stringify fmt v := by
  show toCString ([] ++ toQuotedString name ++ units (str ":") ++ jsonToStr fmt v ++ []) = _
  rw [List.append_nil, List.nil_append, List.append_assoc, whole_toQuotedString, toCString_units_append (by decide)]
  rfl

theorem membersText_cons_cons (name : List UInt16) {v : JsValue} (hv : v.Sound (Reads fmt atod))
    (m : List UInt16 × JsValue) (ms : List (List UInt16 × JsValue)) :
    membersText fmt ((name, v) :: m :: ms) =
      toCString (toQuotedString name) ++ chr ':' :: (stringify fmt v ++ chr ',' :: membersText fmt (m :: ms)) := by
  have hrest : membersToStr fmt 1 (m :: ms) = units (str ",") ++ membersToStr fmt 0 (m :: ms) := by
    rw [membersToStr, membersToStr, membersToStr_succ 1]
    simp
  show toCString ([] ++ toQuotedString name ++ units (str ":") ++ jsonToStr fmt v ++ membersToStr fmt 1 (m :: ms)) = _
  rw [List.nil_append, List.append_assoc, List.append_assoc, whole_toQuotedString, toCString_units_append (by decide),
    whole_jsonToStr v hv, hrest, toCString_units_append (by decide)]
  rfl

/-! ## Reading them -/

/-- What comes after a value: a comma, a closing bracket or the end of the text. -/
def Closes (t : Str) : Prop := ∀ c ∈ t.head?, c = chr ',' ∨ c = chr ']' ∨ c = 125

theorem Closes.numberEnds {t : Str} (h : Closes t) : NumberEnds t := by
  cases t with
  | nil => decide
  | cons c t =>
    have hbyte : ∀ c : UInt8, c = chr ',' ∨ c = chr ']' ∨ c = 125 →
        isDigit c = false ∧ c ≠ chr '.' ∧ c ≠ chr 'e' ∧ c ≠ chr 'E' := forall_byte (by decide +kernel)
    exact hbyte c (h c rfl)

/-- A word is one token. -/
theorem nextToken_word {c : UInt8} {r t : Str} (hc : isIdentFirst c = true) (hr : ∀ b ∈ r, isIdentByte b = true)
    (ht : Closes t) : nextToken atod (c :: r ++ t) = some (.ident (c :: r), t) := by
  have hbranch : ∀ c : UInt8, isIdentFirst c = true → c ≠ chr '"' ∧ ¬ (c = 13 ∨ c = 10 ∨ c = 32 ∨ c = 9) :=
    forall_byte (by decide +kernel)
  obtain ⟨hquote, hspace⟩ := hbranch c hc
  have hstop : t.takeWhile isIdentByte = [] ∧ t.dropWhile isIdentByte = t := by
    cases t with
    | nil => exact ⟨rfl, rfl⟩
    | cons d t =>
      have hbyte : ∀ c : UInt8, c = chr ',' ∨ c = chr ']' ∨ c = 125 → ¬ isIdentByte c = true := forall_byte (by decide +kernel)
      have hd := hbyte d (ht d rfl)
      exact ⟨List.takeWhile_cons_of_neg hd, List.dropWhile_cons_of_neg hd⟩
  rw [List.cons_append, nextToken, if_neg hquote, if_neg hspace, if_pos hc, List.takeWhile_append_of_pos hr,
    List.dropWhile_append_of_pos hr, hstop.1, hstop.2, List.append_nil]

/-- A value reads as `w` and stops at the token after it. -/
def ReadsAs (atod : Str → Float64) (text : Str) (w : JsValue) (t : Str) (n : Nat) : Prop :=
  ∃ tok p, nextToken atod (text ++ t) = some (tok, p) ∧ tok ≠ .char (chr ']') ∧
    parseValue atod n tok p = (nextToken atod t).map fun r => (w, r.1, r.2)

/-- A new name is added at the end. -/
theorem defineProperty_of_distinct {acc ms : List (List UInt16 × JsValue)} {name : List UInt16} {v w : JsValue}
    (h : (acc.map Prod.fst ++ ((name, v) :: ms).map Prod.fst).Nodup) :
    defineProperty acc name w = acc ++ [(name, w)] := by
  have hnew : ∀ m ∈ acc, m.1 ≠ name := by
    intro m hm heq
    have hdisjoint := (List.nodup_append.1 h).2.2 m.1 (List.mem_map.2 ⟨m, hm, rfl⟩) name (by simp)
    exact hdisjoint heq
  have hany : acc.any (·.1 == name) = false := by
    rw [List.any_eq_false]
    intro m hm
    rw [beq_iff_eq]
    exact hnew m hm
  rw [defineProperty, hany]
  rfl

theorem exists_succ {n : Nat} (h : 0 < n) : ∃ m, n = m + 1 := ⟨n - 1, by omega⟩

mutual
/-- **A value is read up to the token after it**, by recursion on the value; two calls go with each byte of its text. -/
theorem readsAs_stringify : ∀ v : JsValue, v.Sound (Reads fmt atod) → ∀ (t : Str) (n : Nat), Closes t →
    2 * (stringify fmt v).length ≤ n → ReadsAs atod (stringify fmt v) v.kept t n
  | .null, _, t, n, ht, hn => by
    rw [stringify_null] at hn ⊢
    obtain ⟨n, rfl⟩ := exists_succ (show 0 < n from lt_of_lt_of_le (by decide) hn)
    refine ⟨_, _, nextToken_word (by decide) (by decide +kernel) ht, by decide, ?_⟩
    rfl
  | .bool true, _, t, n, ht, hn => by
    have htext : stringify fmt (.bool true) = str "true" := toCString_units (by decide : Legible (str "true"))
    rw [htext] at hn ⊢
    obtain ⟨n, rfl⟩ := exists_succ (show 0 < n from lt_of_lt_of_le (by decide) hn)
    refine ⟨_, _, nextToken_word (by decide) (by decide +kernel) ht, by decide, ?_⟩
    rfl
  | .bool false, _, t, n, ht, hn => by
    rw [stringify_false] at hn ⊢
    obtain ⟨n, rfl⟩ := exists_succ (show 0 < n from lt_of_lt_of_le (by decide) hn)
    refine ⟨_, _, nextToken_word (by decide) (by decide +kernel) ht, by decide, ?_⟩
    rfl
  | .number f, h, t, n, ht, hn => by
    by_cases hfinite : f.isFinite = true
    · obtain ⟨hnumber, hback⟩ := h hfinite
      have htext : stringify fmt (.number f) = fmt f := by
        rw [stringify, jsonToStr, if_pos hfinite, toCString_units hnumber.legible]
      have hpos : 0 < (fmt f).length := by
        obtain ⟨sign, d, D, frac, exp, hs, -⟩ := hnumber
        rw [hs]
        simp
      rw [htext] at hn ⊢
      obtain ⟨n, rfl⟩ := exists_succ (show 0 < n by omega)
      refine ⟨_, _, nextToken_number atod hnumber ht.numberEnds, by simp, ?_⟩
      rw [parseValue, hback, JsValue.kept, if_pos hfinite]
    · have htext : stringify fmt (.number f) = str "null" := by
        rw [stringify, jsonToStr, if_neg hfinite, toCString_units (by decide)]
      rw [htext] at hn ⊢
      obtain ⟨n, rfl⟩ := exists_succ (show 0 < n from lt_of_lt_of_le (by decide) hn)
      refine ⟨_, _, nextToken_word (by decide) (by decide +kernel) ht, by decide, ?_⟩
      rw [JsValue.kept, if_neg hfinite]
      rfl
  | .string s, _, t, n, ht, hn => by
    have hpos : 0 < (toCString (toQuotedString s)).length := by
      rw [toCString_toQuotedString]
      simp
    have htext : stringify fmt (.string s) = toCString (toQuotedString s) := rfl
    rw [htext] at hn ⊢
    obtain ⟨n, rfl⟩ := exists_succ (show 0 < n by omega)
    refine ⟨_, _, nextToken_toQuotedString atod s t, by simp, ?_⟩
    rfl
  | .array [], _, t, n, ht, hn => by
    have htext : stringify fmt (.array []) = str "[]" := toCString_units (by decide : Legible (str "[]"))
    rw [htext] at hn ⊢
    obtain ⟨n, rfl⟩ := exists_succ (show 0 < n from lt_of_lt_of_le (by decide) hn)
    refine ⟨.char (chr '['), chr ']' :: t, rfl, by decide, ?_⟩
    rw [parseValue, if_neg (by decide), if_pos rfl]
    show (expect atod (chr ']') (.char (chr ']')) t).bind _ = _
    rw [expect, if_pos rfl]
    cases nextToken atod t <;> rfl
  | .array (x :: xs), h, t, n, ht, hn => by
    rw [stringify_array h] at hn ⊢
    simp only [List.length_cons, List.length_append, List.length_nil] at hn
    obtain ⟨n, rfl⟩ := exists_succ (show 0 < n by omega)
    obtain ⟨tok, p, htok, hne, helements⟩ := parseElements_elementsText (x :: xs) h (by simp) t n (by omega)
    refine ⟨.char (chr '['), elementsText fmt (x :: xs) ++ chr ']' :: t, ?_, by decide, ?_⟩
    · rw [List.cons_append, List.append_assoc]
      rfl
    rw [parseValue, if_neg (by decide), if_pos rfl, htok]
    simp only [Option.bind_eq_bind, Option.bind_some, if_neg hne, helements]
    rw [expect, if_pos rfl]
    cases nextToken atod t <;> rfl
  | .object [], _, t, n, ht, hn => by
    have htext : stringify fmt (.object []) = [123, 125] := toCString_units (by decide : Legible [123, 125])
    rw [htext] at hn ⊢
    obtain ⟨n, rfl⟩ := exists_succ (show 0 < n from lt_of_lt_of_le (by decide) hn)
    refine ⟨.char 123, 125 :: t, rfl, by decide, ?_⟩
    rw [parseValue, if_pos rfl]
    show (expect atod 125 (.char 125) t).bind _ = _
    rw [expect, if_pos rfl]
    cases nextToken atod t <;> rfl
  | .object (m :: ms), h, t, n, ht, hn => by
    rw [stringify_object h.2] at hn ⊢
    simp only [List.length_cons, List.length_append, List.length_nil] at hn
    obtain ⟨n, rfl⟩ := exists_succ (show 0 < n by omega)
    obtain ⟨tok, p, htok, hne, hmembers⟩ :=
      parseMembers_membersText (m :: ms) h.2 (by simp) [] (by simpa using h.1) t n (by omega)
    refine ⟨.char 123, membersText fmt (m :: ms) ++ 125 :: t, ?_, by decide, ?_⟩
    · rw [List.cons_append, List.append_assoc]
      rfl
    rw [parseValue, if_pos rfl, htok]
    simp only [Option.bind_eq_bind, Option.bind_some, if_neg hne, hmembers, List.nil_append]
    rw [expect, if_pos rfl]
    cases nextToken atod t <;> rfl

theorem parseElements_elementsText : ∀ xs : List JsValue, SoundElements (Reads fmt atod) xs → xs ≠ [] → ∀ (t : Str) (n : Nat),
    2 * (elementsText fmt xs).length + 1 ≤ n → ∃ tok p,
      nextToken atod (elementsText fmt xs ++ chr ']' :: t) = some (tok, p) ∧ tok ≠ .char (chr ']') ∧
      parseElements atod n tok p = some (keptElements xs, .char (chr ']'), t)
  | [], _, hne, _, _, _ => absurd rfl hne
  | [x], h, _, t, n, hn => by
    rw [elementsText_singleton] at hn ⊢
    obtain ⟨n, rfl⟩ := exists_succ (show 0 < n by omega)
    obtain ⟨tok, p, htok, hfirst, hvalue⟩ :=
      readsAs_stringify x h.1 (chr ']' :: t) n (fun c hc => Or.inr (Or.inl (Option.mem_some.1 hc).symm)) (by omega)
    refine ⟨tok, p, htok, hfirst, ?_⟩
    rw [parseElements, hvalue]
    rfl
  | x :: y :: xs, h, _, t, n, hn => by
    rw [elementsText_cons_cons h.1] at hn ⊢
    simp only [List.length_cons, List.length_append] at hn
    obtain ⟨n, rfl⟩ := exists_succ (show 0 < n by omega)
    obtain ⟨tok', p', htok', -, hrest⟩ := parseElements_elementsText (y :: xs) h.2 (by simp) t n (by omega)
    obtain ⟨tok, p, htok, hfirst, hvalue⟩ :=
      readsAs_stringify x h.1 (chr ',' :: (elementsText fmt (y :: xs) ++ chr ']' :: t)) n
        (fun c hc => Or.inl (Option.mem_some.1 hc).symm) (by omega)
    refine ⟨tok, p, ?_, hfirst, ?_⟩
    · rw [List.append_assoc, List.cons_append]
      exact htok
    have hcomma : nextToken atod (chr ',' :: (elementsText fmt (y :: xs) ++ chr ']' :: t)) =
        some (.char (chr ','), elementsText fmt (y :: xs) ++ chr ']' :: t) := rfl
    rw [parseElements, hvalue, hcomma]
    simp [htok', hrest, keptElements]

theorem parseMembers_membersText : ∀ ms : List (List UInt16 × JsValue), SoundMembers (Reads fmt atod) ms → ms ≠ [] →
    ∀ acc : List (List UInt16 × JsValue), (acc.map Prod.fst ++ ms.map Prod.fst).Nodup → ∀ (t : Str) (n : Nat),
    2 * (membersText fmt ms).length + 1 ≤ n → ∃ tok p,
      nextToken atod (membersText fmt ms ++ 125 :: t) = some (tok, p) ∧ tok ≠ .char 125 ∧
      parseMembers atod n acc tok p = some (acc ++ keptMembers ms, .char 125, t)
  | [], _, hne, _, _, _, _, _ => absurd rfl hne
  | [(name, v)], h, _, acc, hdistinct, t, n, hn => by
    rw [membersText_singleton] at hn ⊢
    simp only [List.length_cons, List.length_append] at hn
    obtain ⟨n, rfl⟩ := exists_succ (show 0 < n by omega)
    obtain ⟨tok, p, htok, -, hvalue⟩ :=
      readsAs_stringify v h.1 (125 :: t) n (fun c hc => Or.inr (Or.inr (Option.mem_some.1 hc).symm)) (by omega)
    refine ⟨.string name, chr ':' :: (stringify fmt v ++ 125 :: t), ?_, by simp, ?_⟩
    · rw [List.append_assoc, List.cons_append]
      exact nextToken_toQuotedString atod name _
    have hcolon : nextToken atod (chr ':' :: (stringify fmt v ++ 125 :: t)) =
        some (.char (chr ':'), stringify fmt v ++ 125 :: t) := rfl
    have hclose : nextToken atod (125 :: t) = some (.char 125, t) := rfl
    rw [parseMembers, hcolon]
    simp only [Option.bind_eq_bind, Option.bind_some, expect, if_true, htok, hvalue, hclose, Option.map_some]
    rw [defineProperty_of_distinct hdistinct]
    rfl
  | (name, v) :: m :: ms, h, _, acc, hdistinct, t, n, hn => by
    rw [membersText_cons_cons name h.1] at hn ⊢
    simp only [List.length_cons, List.length_append] at hn
    obtain ⟨n, rfl⟩ := exists_succ (show 0 < n by omega)
    have hdistinct' : ((acc ++ [(name, v.kept)]).map Prod.fst ++ (m :: ms).map Prod.fst).Nodup := by
      simpa using hdistinct
    obtain ⟨tok', p', htok', -, hrest⟩ := parseMembers_membersText (m :: ms) h.2 (by simp) (acc ++ [(name, v.kept)])
      hdistinct' t n (by omega)
    obtain ⟨tok, p, htok, -, hvalue⟩ :=
      readsAs_stringify v h.1 (chr ',' :: (membersText fmt (m :: ms) ++ 125 :: t)) n
        (fun c hc => Or.inl (Option.mem_some.1 hc).symm) (by omega)
    refine ⟨.string name, chr ':' :: (stringify fmt v ++ chr ',' :: (membersText fmt (m :: ms) ++ 125 :: t)), ?_, by simp, ?_⟩
    · rw [List.append_assoc, List.cons_append, List.append_assoc, List.cons_append]
      exact nextToken_toQuotedString atod name _
    have hcolon : nextToken atod (chr ':' :: (stringify fmt v ++ chr ',' :: (membersText fmt (m :: ms) ++ 125 :: t))) =
        some (.char (chr ':'), stringify fmt v ++ chr ',' :: (membersText fmt (m :: ms) ++ 125 :: t)) := rfl
    have hcomma : nextToken atod (chr ',' :: (membersText fmt (m :: ms) ++ 125 :: t)) =
        some (.char (chr ','), membersText fmt (m :: ms) ++ 125 :: t) := rfl
    rw [parseMembers, hcolon]
    simp only [Option.bind_eq_bind, Option.bind_some, expect, if_true, htok, hvalue, hcomma, Option.map_some]
    rw [defineProperty_of_distinct hdistinct, htok']
    simp [hrest, keptMembers]
end

theorem parseJSON_stringify {v : JsValue} (h : v.Sound (Reads fmt atod)) :
    parseJSON atod (stringify fmt v) = some v.kept := by
  obtain ⟨tok, p, htok, -, hvalue⟩ :=
    readsAs_stringify v h [] (2 * (stringify fmt v).length + 2) (fun c hc => absurd hc (by simp)) (by omega)
  rw [List.append_nil] at htok
  rw [parseJSON, htok]
  simp only [Option.bind_eq_bind, Option.bind_some]
  rw [hvalue]
  rfl

/-! ## What is lost -/

theorem isFinite_unsignedZero {f : Float64} (h : f.isFinite = true) : (unsignedZero f).isFinite = true := by
  unfold unsignedZero
  split
  · rfl
  · exact h

theorem NumberText.unsignedZero (h : NumberText fmt) (f : Float64) : fmt (unsignedZero f) = fmt f := by
  unfold Qjs.unsignedZero
  split
  · rename_i hzero
    rw [h.zero f hzero, h.zero ⟨0⟩ rfl]
  · rfl

mutual
/-- What is kept of a value has the text of the value. -/
theorem jsonToStr_kept (h : NumberText fmt) : ∀ v : JsValue, jsonToStr fmt v.kept = jsonToStr fmt v
  | .null => rfl
  | .bool _ => rfl
  | .number f => by
    rw [JsValue.kept]
    by_cases hfinite : f.isFinite = true
    · rw [if_pos hfinite, jsonToStr, jsonToStr, if_pos hfinite, if_pos (isFinite_unsignedZero hfinite), h.unsignedZero]
    · rw [if_neg hfinite, jsonToStr, jsonToStr, if_neg hfinite]
  | .string _ => rfl
  | .array xs => by rw [JsValue.kept, jsonToStr, jsonToStr, elementsToStr_kept h 0 xs]
  | .object ms => by rw [JsValue.kept, jsonToStr, jsonToStr, membersToStr_kept h 0 ms]

theorem elementsToStr_kept (h : NumberText fmt) :
    ∀ (i : Nat) (xs : List JsValue), elementsToStr fmt i (keptElements xs) = elementsToStr fmt i xs
  | _, [] => rfl
  | i, x :: xs => by
    rw [keptElements, elementsToStr, elementsToStr, jsonToStr_kept h x, elementsToStr_kept h (i + 1) xs]

theorem membersToStr_kept (h : NumberText fmt) :
    ∀ (i : Nat) (ms : List (List UInt16 × JsValue)), membersToStr fmt i (keptMembers ms) = membersToStr fmt i ms
  | _, [] => rfl
  | i, (name, v) :: ms => by
    rw [keptMembers, membersToStr, membersToStr, jsonToStr_kept h v, membersToStr_kept h (i + 1) ms]
end

/-- JSON has this number. -/
def HasText (f : Float64) : Prop := f.isFinite = true ∧ unsignedZero f = f

mutual
theorem kept_eq_iff {P : Float64 → Prop} : ∀ v : JsValue, v.Sound P → (v.kept = v ↔ v.Sound HasText)
  | .null, _ => iff_of_true rfl trivial
  | .bool _, _ => iff_of_true rfl trivial
  | .number f, _ => by
    rw [JsValue.kept, JsValue.Sound, HasText]
    by_cases hfinite : f.isFinite = true
    · rw [if_pos hfinite, JsValue.number.injEq, and_iff_right hfinite]
    · rw [if_neg hfinite]
      exact iff_of_false (by simp) fun h => hfinite h.1
  | .string _, _ => iff_of_true rfl trivial
  | .array xs, h => by rw [JsValue.kept, JsValue.array.injEq, keptElements_eq_iff xs h, JsValue.Sound]
  | .object ms, h => by
    rw [JsValue.kept, JsValue.object.injEq, keptMembers_eq_iff ms h.2, JsValue.Sound, and_iff_right h.1]

theorem keptElements_eq_iff {P : Float64 → Prop} :
    ∀ xs : List JsValue, SoundElements P xs → (keptElements xs = xs ↔ SoundElements HasText xs)
  | [], _ => iff_of_true rfl trivial
  | x :: xs, h => by
    rw [keptElements, List.cons.injEq, kept_eq_iff x h.1, keptElements_eq_iff xs h.2, SoundElements]

theorem keptMembers_eq_iff {P : Float64 → Prop} :
    ∀ ms : List (List UInt16 × JsValue), SoundMembers P ms → (keptMembers ms = ms ↔ SoundMembers HasText ms)
  | [], _ => iff_of_true rfl trivial
  | (name, v) :: ms, h => by
    rw [keptMembers, List.cons.injEq, Prod.mk.injEq, and_iff_right rfl, kept_eq_iff v h.1, keptMembers_eq_iff ms h.2,
      SoundMembers]
end

/-- **Reading back what is written.** The text of a value is read as what JSON keeps of it, which is the value itself
exactly when each of its numbers is finite and none is the negative zero; and two values have the same text exactly
when JSON keeps the same of them. -/
theorem stringify_reads_back (fmt : Float64 → Str) (atod : Str → Float64) (hfmt : NumberText fmt) (v : JsValue)
    (hv : v.Sound (Reads fmt atod)) :
    parseJSON atod (stringify fmt v) = some v.kept ∧
      (parseJSON atod (stringify fmt v) = some v ↔ v.Sound HasText) ∧
      ∀ w : JsValue, w.Sound (Reads fmt atod) → (stringify fmt v = stringify fmt w ↔ v.kept = w.kept) := by
  refine ⟨parseJSON_stringify hv, ?_, fun w hw => ⟨fun h => ?_, fun h => ?_⟩⟩
  · rw [parseJSON_stringify hv, Option.some.injEq]
    exact kept_eq_iff v hv
  · have hread := parseJSON_stringify hv
    rw [h, parseJSON_stringify hw, Option.some.injEq] at hread
    exact hread.symm
  · rw [stringify, stringify, ← jsonToStr_kept hfmt v, h, jsonToStr_kept hfmt w]

end

/-! ### An object with a number, a pair of surrogates and half of one -/

def oneAndAHalf : Float64 := ⟨0x3ff8000000000000⟩

/-- JavaScript's texts of 0 and 1.5. -/
def halfText (f : Float64) : Str := if f.isZero then str "0" else str "1.5"

def halfAtod (s : Str) : Float64 := if s = str "1.5" then oneAndAHalf else ⟨0⟩

def halfValue : JsValue :=
  .object [(units (str "a"), .array [.number oneAndAHalf, .null, .string [0xd834, 0xdd1e, 0xd800]])]

theorem isNumber_half : IsNumber (str "1.5") :=
  ⟨[], chr '1', [], str ".5", [], rfl, Or.inl rfl, by unfold Digits; decide +kernel, by decide,
    Or.inr ⟨chr '5', [], rfl, by unfold Digits; decide +kernel⟩, Or.inl rfl⟩

/-- It is written and read back as it is. -/
theorem stringify_reads_back_half : parseJSON halfAtod (stringify halfText halfValue) = some halfValue := by
  have hfmt : NumberText halfText := by
    refine ⟨fun f => ?_, fun f hf => if_pos hf⟩
    unfold halfText
    split
    · decide
    · decide
  have hreads : Reads halfText halfAtod oneAndAHalf := fun _ => ⟨isNumber_half, by decide⟩
  have htext : HasText oneAndAHalf := ⟨by decide, by decide⟩
  exact (stringify_reads_back halfText halfAtod hfmt halfValue
    ⟨by decide, ⟨hreads, trivial, trivial, trivial⟩, trivial⟩).2.1.2 ⟨by decide, ⟨htext, trivial, trivial, trivial⟩, trivial⟩

end MirageLambda.Qjs
