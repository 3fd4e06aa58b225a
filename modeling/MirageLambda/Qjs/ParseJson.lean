import MirageLambda.Lib.Float64

/-!
# Reading JSON (quickjs.c, `JS_ParseJSON`)

`mlqjs_resolve` hands its text to the engine's JSON reader. A text is the bytes from `buf_ptr` on; at its end
`*p` is the NUL that every OCaml string ends with. `json_next_token` splits it, `json_parse_value` builds the value,
both without the JSON5 extensions (`ext_json` is false here). `js_atod` is a parameter: it is only ever applied to
the text of a number. The stack check is left out.

`parseJSON_camlString` is what the worker needs to know: OCaml's `%S` writes a JSON string for `Legible` texts and
for no others.
-/

namespace MirageLambda.Qjs
open OCaml

/-- The values JSON texts denote. A string is its UTF-16 code units. -/
inductive JsValue where
  | null
  | bool (b : Bool)
  | number (f : Float64)
  | string (s : List UInt16)
  | array (xs : List JsValue)
  | object (ms : List (List UInt16 × JsValue))

/-! ## UTF-8 -/

/-- `unicode_to_utf8` (cutils.c:216), up to the 21 bits of a code point. -/
def unicodeToUtf8 (c : Nat) : Str :=
  if c < 0x80 then [UInt8.ofNat c]
  else if c < 0x800 then [UInt8.ofNat (c >>> 6 ||| 0xc0), UInt8.ofNat (c &&& 0x3f ||| 0x80)]
  else if c < 0x10000 then
    [UInt8.ofNat (c >>> 12 ||| 0xe0), UInt8.ofNat (c >>> 6 &&& 0x3f ||| 0x80), UInt8.ofNat (c &&& 0x3f ||| 0x80)]
  else
    [UInt8.ofNat (c >>> 18 ||| 0xf0), UInt8.ofNat (c >>> 12 &&& 0x3f ||| 0x80),
      UInt8.ofNat (c >>> 6 &&& 0x3f ||| 0x80), UInt8.ofNat (c &&& 0x3f ||| 0x80)]

/-- The code points of a JavaScript string (`string_getc`): a surrogate pair is one, an unmatched surrogate is kept. -/
def codePoints : List UInt16 → List Nat
  | [] => []
  | [c] => [c.toNat]
  | c :: d :: s =>
    if (0xd800 ≤ c ∧ c < 0xdc00) ∧ 0xdc00 ≤ d ∧ d < 0xe000 then
      (0x10000 + (c.toNat - 0xd800) * 0x400 + (d.toNat - 0xdc00)) :: codePoints s
    else c.toNat :: codePoints (d :: s)

/-- The bytes of a JavaScript string (`JS_ToCString`, quickjs.c:4458). -/
def toCString (s : List UInt16) : Str := (codePoints s).flatMap unicodeToUtf8

/-- How many bytes follow a first byte, its mask and the least code point of that length (cutils.c:251-302). -/
def utf8Lead (c : UInt8) : Option (Nat × UInt8 × Nat) :=
  if 0xc0 ≤ c ∧ c ≤ 0xdf then some (1, 0x1f, 0x80)
  else if 0xe0 ≤ c ∧ c ≤ 0xef then some (2, 0xf, 0x800)
  else if 0xf0 ≤ c ∧ c ≤ 0xf7 then some (3, 0x7, 0x10000)
  else if 0xf8 ≤ c ∧ c ≤ 0xfb then some (4, 0x3, 0x200000)
  else if 0xfc ≤ c ∧ c ≤ 0xfd then some (5, 0x1, 0x4000000)
  else none

/-- The loop over the bytes that follow. -/
def utf8Tail : Nat → Nat → Str → Option (Nat × Str)
  | 0, c, p => some (c, p)
  | _ + 1, _, [] => none
  | n + 1, c, b :: p => if b < 0x80 ∨ 0xc0 ≤ b then none else utf8Tail n (c <<< 6 ||| (b &&& 0x3f).toNat) p

/-- `unicode_from_utf8` (cutils.c:261), for a first byte that is not ASCII. -/
def unicodeFromUtf8 (c : UInt8) (p : Str) : Option (Nat × Str) := do
  let (l, mask, min) ← utf8Lead c
  let (u, p) ← utf8Tail l (c &&& mask).toNat p
  if u < min then none else some (u, p)

/-- `string_buffer_putc`. -/
def putc (c : Nat) : List UInt16 :=
  if 0x10000 ≤ c then [UInt16.ofNat ((c - 0x10000) >>> 10 + 0xd800), UInt16.ofNat ((c &&& 0x3ff) + 0xdc00)]
  else [UInt16.ofNat c]

/-! ## Tokens -/

/-- `s->token`, without the error token. -/
inductive Token where
  | eof
  | string (s : List UInt16)
  | number (f : Float64)
  | ident (name : Str)
  | char (c : UInt8)
deriving DecidableEq, Repr

/-- `*p`. -/
def peek (p : Str) : UInt8 := p.headD 0

def isDigit (c : UInt8) : Bool := chr '0' ≤ c && c ≤ chr '9'

/-- The first byte of an identifier (quickjs.c:23466-23481). -/
def isIdentFirst (c : UInt8) : Bool :=
  (chr 'a' ≤ c && c ≤ chr 'z') || (chr 'A' ≤ c && c ≤ chr 'Z') || c == chr '_' || c == chr '$'

/-- `lre_is_id_continue_byte`. -/
def isIdentByte (c : UInt8) : Bool := isIdentFirst c || isDigit c

/-- The four digits after `\u` (quickjs.c:23220-23229). -/
def hexDigits : Nat → Nat → Str → Option (Nat × Str)
  | 0, c, p => some (c, p)
  | _ + 1, _, [] => none
  | n + 1, c, h :: p => match parseDigit h with
    | none => none
    | some d => hexDigits n (c <<< 4 ||| d) p

/-- The escapes of one letter (quickjs.c:23213-23219, 23242). -/
def escapeCode (c : UInt8) : Option Nat :=
  if c = chr 'b' then some 8
  else if c = chr 'f' then some 12
  else if c = chr 'n' then some 10
  else if c = chr 'r' then some 13
  else if c = chr 't' then some 9
  else if c = chr '\\' ∨ c = chr '/' ∨ c = chr '"' then some c.toNat
  else none

/-- What follows a backslash (quickjs.c:23210-23249). -/
def parseEscape : Str → Option (Nat × Str)
  | [] => none
  | c :: p => if c = chr 'u' then hexDigits 4 0 p else (escapeCode c).map fun u => (u, p)

/-- One character of a string, its first byte `c` read (quickjs.c:23203-23258). -/
def parseChar (c : UInt8) (p : Str) : Option (Nat × Str) :=
  if c = chr '\\' then parseEscape p
  else if 0x80 ≤ c then do
    let (u, p) ← unicodeFromUtf8 c p
    if u > 0x10ffff then none else some (u, p)
  else some (c.toNat, p)

/-- `json_parse_string` (quickjs.c:23188), after the opening quote. -/
def parseString : Nat → Str → Option (List UInt16 × Str)
  | 0, _ => none
  | _ + 1, [] => none
  | n + 1, c :: p =>
    if c = chr '"' then some ([], p)
    else if c < 0x20 then none
    else do
      let (u, p) ← parseChar c p
      let (s, p) ← parseString n p
      some (putc u ++ s, p)

/-- The digits of a fraction or of an exponent: at least one. -/
def parseDigits1 (p : Str) : Option Str := if isDigit (peek p) then some (p.dropWhile isDigit) else none

def parseFraction (p : Str) : Option Str := if peek p = chr '.' then parseDigits1 (p.drop 1) else some p

def parseExponent (p : Str) : Option Str :=
  if peek p = chr 'e' ∨ peek p = chr 'E' then
    let p := p.drop 1
    parseDigits1 (if peek p = chr '+' ∨ peek p = chr '-' then p.drop 1 else p)
  else some p

/-- `json_parse_number` (quickjs.c:23275). -/
def parseNumber (atod : Str → Float64) (start : Str) : Option (Float64 × Str) :=
  let p := if peek start = chr '+' ∨ peek start = chr '-' then start.drop 1 else start
  if !isDigit (peek p) then none
  else if peek p = chr '0' ∧ isDigit (peek (p.drop 1)) then none
  else do
    let p ← parseFraction (p.dropWhile isDigit)
    let p ← parseExponent p
    some (atod (start.take (start.length - p.length)), p)

/-- `json_next_token` (quickjs.c:23360). -/
def nextToken (atod : Str → Float64) : Str → Option (Token × Str)
  | [] => some (.eof, [])
  | c :: p =>
    if c = chr '"' then (parseString (p.length + 1) p).map fun r => (.string r.1, r.2)
    else if c = 13 ∨ c = 10 ∨ c = 32 ∨ c = 9 then nextToken atod p
    else if isIdentFirst c then some (.ident (c :: p.takeWhile isIdentByte), p.dropWhile isIdentByte)
    else if c = chr '-' ∨ isDigit c then (parseNumber atod (c :: p)).map fun r => (.number r.1, r.2)
    else if 0x80 ≤ c then none
    else some (.char c, p)

/-! ## Values -/

/-- `json_parse_expect` (quickjs.c:49092). -/
def expect (atod : Str → Float64) (c : UInt8) (tok : Token) (p : Str) : Option (Token × Str) :=
  if tok = .char c then nextToken atod p else none

/-- `JS_DefinePropertyValue`: a name that is there keeps its place and gets the new value. -/
def defineProperty (ms : List (List UInt16 × JsValue)) (name : List UInt16) (v : JsValue) :
    List (List UInt16 × JsValue) :=
  if ms.any (·.1 == name) then ms.map fun m => if m.1 == name then (name, v) else m else ms ++ [(name, v)]

mutual
/-- `json_parse_value` (quickjs.c:49257). Returns the value with the token after it. -/
def parseValue (atod : Str → Float64) : Nat → Token → Str → Option (JsValue × Token × Str)
  | 0, _, _ => none
  | n + 1, tok, p =>
    match tok with
    | .char c =>
      if c = 123 then do
        let (tok, p) ← nextToken atod p
        let (ms, tok, p) ← if tok = .char 125 then some ([], tok, p) else parseMembers atod n [] tok p
        let (tok, p) ← expect atod 125 tok p
        some (.object ms, tok, p)
      else if c = chr '[' then do
        let (tok, p) ← nextToken atod p
        let (xs, tok, p) ← if tok = .char (chr ']') then some ([], tok, p) else parseElements atod n tok p
        let (tok, p) ← expect atod (chr ']') tok p
        some (.array xs, tok, p)
      else none
    | .string s => (nextToken atod p).map fun r => (.string s, r.1, r.2)
    | .number f => (nextToken atod p).map fun r => (.number f, r.1, r.2)
    | .ident name =>
      if name = str "true" then (nextToken atod p).map fun r => (.bool true, r.1, r.2)
      else if name = str "false" then (nextToken atod p).map fun r => (.bool false, r.1, r.2)
      else if name = str "null" then (nextToken atod p).map fun r => (.null, r.1, r.2)
      else none
    | .eof => none

/-- The loop over the members of an object (quickjs.c:49285-49327). -/
def parseMembers (atod : Str → Float64) :
    Nat → List (List UInt16 × JsValue) → Token → Str → Option (List (List UInt16 × JsValue) × Token × Str)
  | 0, _, _, _ => none
  | n + 1, ms, tok, p =>
    match tok with
    | .string name => do
      let (tok, p) ← nextToken atod p
      let (tok, p) ← expect atod (chr ':') tok p
      let (v, tok, p) ← parseValue atod n tok p
      let ms := defineProperty ms name v
      if tok = .char (chr ',') then do
        let (tok, p) ← nextToken atod p
        parseMembers atod n ms tok p
      else some (ms, tok, p)
    | _ => none

/-- The loop over the elements of an array (quickjs.c:49349-49374). -/
def parseElements (atod : Str → Float64) : Nat → Token → Str → Option (List JsValue × Token × Str)
  | 0, _, _ => none
  | n + 1, tok, p => do
    let (v, tok, p) ← parseValue atod n tok p
    if tok = .char (chr ',') then do
      let (tok, p) ← nextToken atod p
      let (vs, tok, p) ← parseElements atod n tok p
      some (v :: vs, tok, p)
    else some ([v], tok, p)
end

/-- `JS_ParseJSON` (quickjs.c:49475); `none` is the exception. Two calls go with each token. -/
def parseJSON (atod : Str → Float64) (text : Str) : Option JsValue := do
  let (tok, p) ← nextToken atod text
  let (v, tok, _) ← parseValue atod (2 * text.length + 2) tok p
  if tok = .eof then some v else none

/-! ## The texts of `%S` -/

/-- A byte that OCaml's `%S` writes as JSON does: `\b`, `\t`, `\n`, `\r` and printable ASCII. -/
def legibleByte (c : UInt8) : Bool := c == 8 || c == 9 || c == 10 || c == 13 || (32 ≤ c && c ≤ 126)

/-- A text that is printed and read back between OCaml and JSON. -/
def Legible (s : Str) : Prop := ∀ c ∈ s, legibleByte c = true

-- not by instance search: it may find the one that goes through all bytes
instance (s : Str) : Decidable (Legible s) := List.decidableBAll (fun c => legibleByte c = true) s

theorem legible_append {s t : Str} : Legible (s ++ t) ↔ Legible s ∧ Legible t := List.forall_mem_append

/-- The code units of an ASCII text. -/
def units (s : Str) : List UInt16 := s.map UInt8.toUInt16

/-- A legible byte stands for itself or has an escape that JSON has too; the others get `\ddd`, which is none. -/
theorem escapedByte_cases (c : UInt8) :
    (legibleByte c = true ∧ escapedByte (chr '"') c = [c] ∧ c ≠ chr '"' ∧ c ≠ chr '\\' ∧ ¬ c < 0x20 ∧ ¬ 0x80 ≤ c) ∨
    (legibleByte c = true ∧ ∃ a, escapedByte (chr '"') c = [chr '\\', a] ∧ a ≠ chr 'u' ∧ escapeCode a = some c.toNat) ∨
    (legibleByte c = false ∧ ∃ a r, escapedByte (chr '"') c = chr '\\' :: a :: r ∧ a ≠ chr 'u' ∧ escapeCode a = none) := by
  have hbytes : ∀ c : UInt8,
      (legibleByte c = true ∧ escapedByte (chr '"') c = [c] ∧ c ≠ chr '"' ∧ c ≠ chr '\\' ∧ ¬ c < 0x20 ∧ ¬ 0x80 ≤ c) ∨
      (legibleByte c = true ∧ escapedByte (chr '"') c = [chr '\\', (escapedByte (chr '"') c).getD 1 0] ∧
        (escapedByte (chr '"') c).getD 1 0 ≠ chr 'u' ∧
        escapeCode ((escapedByte (chr '"') c).getD 1 0) = some c.toNat) ∨
      (legibleByte c = false ∧
        escapedByte (chr '"') c =
          chr '\\' :: (escapedByte (chr '"') c).getD 1 0 :: (escapedByte (chr '"') c).drop 2 ∧
        (escapedByte (chr '"') c).getD 1 0 ≠ chr 'u' ∧ escapeCode ((escapedByte (chr '"') c).getD 1 0) = none) :=
    forall_byte (by decide +kernel)
  rcases hbytes c with h | ⟨hc, h⟩ | ⟨hc, h⟩
  · exact Or.inl h
  · exact Or.inr (Or.inl ⟨hc, _, h⟩)
  · exact Or.inr (Or.inr ⟨hc, _, _, h⟩)

theorem putc_legible {c : UInt8} (hc : legibleByte c = true) : putc c.toNat = [c.toUInt16] := by
  have hbytes : ∀ c : UInt8, legibleByte c = true → putc c.toNat = [c.toUInt16] := forall_byte (by decide +kernel)
  exact hbytes c hc

/-- One escaped byte, legible or not. -/
theorem parseString_escapedByte (n : Nat) (c : UInt8) (t : Str) :
    parseString (n + 1) (escapedByte (chr '"') c ++ t) =
      if legibleByte c then (parseString n t).map fun r => (c.toUInt16 :: r.1, r.2) else none := by
  have hslash : chr '\\' ≠ chr '"' := by decide
  have hcontrol : ¬ chr '\\' < 0x20 := by decide
  rcases escapedByte_cases c with ⟨hc, he, hq, hs, hlo, hhi⟩ | ⟨hc, a, he, hu, ha⟩ | ⟨hc, a, r, he, hu, ha⟩
  · rw [he, if_pos hc]
    simp only [List.cons_append, List.nil_append, parseString, parseChar, if_neg hq, if_neg hs, if_neg hlo, if_neg hhi]
    cases hrest : parseString n t <;> simp [hrest, putc_legible hc]
  · rw [he, if_pos hc]
    simp only [List.cons_append, List.nil_append, parseString, parseChar, parseEscape, if_neg hslash, if_neg hcontrol,
      if_neg hu, ha, if_true]
    cases hrest : parseString n t <;> simp [hrest, putc_legible hc]
  · rw [he, hc]
    simp only [List.cons_append, parseString, parseChar, parseEscape, if_neg hslash, if_neg hcontrol, if_neg hu, ha,
      if_true]
    rfl

/-- The text between the quotes is read back when it is legible, and refused otherwise. -/
theorem parseString_escaped (s t : Str) {n : Nat} (hn : s.length < n) :
    parseString n (s.flatMap (escapedByte (chr '"')) ++ chr '"' :: t) =
      if Legible s then some (units s, t) else none := by
  induction s generalizing n with
  | nil =>
    obtain ⟨n, rfl⟩ : ∃ m, n = m + 1 := ⟨n - 1, by simp at hn; omega⟩
    rw [if_pos (by simp [Legible])]
    simp [parseString, units]
  | cons c s ih =>
    simp only [List.length_cons] at hn
    obtain ⟨n, rfl⟩ : ∃ m, n = m + 1 := ⟨n - 1, by omega⟩
    rw [List.flatMap_cons, List.append_assoc, parseString_escapedByte, ih (show s.length < n by omega)]
    by_cases hc : legibleByte c = true
    · by_cases hs : Legible s
      · rw [if_pos hc, if_pos hs, if_pos (by simpa [Legible, hc] using hs)]
        rfl
      · rw [if_pos hc, if_neg hs, if_neg (by simpa [Legible, hc] using hs)]
        rfl
    · rw [if_neg hc, if_neg (by simp [Legible, hc])]

theorem length_le_flatMap_escapedByte (s : Str) : s.length ≤ (s.flatMap (escapedByte (chr '"'))).length := by
  induction s with
  | nil => simp
  | cons c s ih =>
    have hpos : 1 ≤ (escapedByte (chr '"') c).length := by
      rcases escapedByte_cases c with ⟨-, he, -⟩ | ⟨-, a, he, -⟩ | ⟨-, a, r, he, -⟩ <;> simp [he]
    simp only [List.flatMap_cons, List.length_append, List.length_cons]
    omega

section
variable (atod : Str → Float64)

theorem nextToken_camlString (s t : Str) :
    nextToken atod (camlString s ++ t) = if Legible s then some (.string (units s), t) else none := by
  have hlen := length_le_flatMap_escapedByte s
  have htext : camlString s ++ t = chr '"' :: (s.flatMap (escapedByte (chr '"')) ++ chr '"' :: t) := by
    simp [camlString]
  rw [htext, nextToken, if_pos rfl, parseString_escaped s t (by rw [List.length_append]; omega)]
  split <;> rfl

/-- **`%S` writes JSON exactly for legible texts**, and then it denotes the text. -/
theorem parseJSON_camlString (s : Str) :
    parseJSON atod (camlString s) = if Legible s then some (.string (units s)) else none := by
  have htok := nextToken_camlString atod s []
  rw [List.append_nil] at htok
  rw [parseJSON, htok]
  split
  · rfl
  · rfl

end

/-- A unit that is no high surrogate stands for itself. -/
theorem codePoints_cons {c : UInt16} (hc : c < 0xd800) (s : List UInt16) : codePoints (c :: s) = c.toNat :: codePoints s := by
  cases s with
  | nil => rfl
  | cons d s =>
    have hpair : ¬ ((0xd800 ≤ c ∧ c < 0xdc00) ∧ 0xdc00 ≤ d ∧ d < 0xe000) := fun hp => absurd hp.1.1 (UInt16.not_le.2 hc)
    rw [codePoints, if_neg hpair]

/-- An ASCII text is the bytes of its code units. -/
theorem toCString_units {s : Str} (h : Legible s) : toCString (units s) = s := by
  have hascii : ∀ c : UInt8, legibleByte c = true → unicodeToUtf8 c.toUInt16.toNat = [c] ∧ c.toUInt16 < 0xd800 :=
    forall_byte (by decide +kernel)
  induction s with
  | nil => rfl
  | cons c s ih =>
    obtain ⟨hbytes, hlow⟩ := hascii c (h c (by simp))
    have ih := ih fun d hd => h d (by simp [hd])
    show (codePoints (c.toUInt16 :: units s)).flatMap unicodeToUtf8 = c :: s
    rw [codePoints_cons hlow, List.flatMap_cons, hbytes]
    exact congrArg (c :: ·) ih

/-! ## The texts of numbers -/

/-- What follows does not continue a number. -/
def NumberEnds (t : Str) : Prop :=
  isDigit (peek t) = false ∧ peek t ≠ chr '.' ∧ peek t ≠ chr 'e' ∧ peek t ≠ chr 'E'

instance (t : Str) : Decidable (NumberEnds t) := inferInstanceAs (Decidable (_ ∧ _ ∧ _ ∧ _))

theorem isDigit_digitChar {d : Nat} (h : d < 10) : isDigit (digitChar d) = true := by
  interval_cases d <;> decide

theorem dropWhile_isDigit {D t : Str} (hD : ∀ c ∈ D, isDigit c = true) (ht : isDigit (peek t) = false) :
    (D ++ t).dropWhile isDigit = t := by
  rw [List.dropWhile_append_of_pos hD]
  cases t with
  | nil => rfl
  | cons c t => exact List.dropWhile_cons_of_neg (by simpa [peek] using ht)

/-- `%d` writes an optional minus and digits, of which the first is not a superfluous 0. -/
theorem intToString_cases (n : Int) : ∃ d D, isDigit d = true ∧ (∀ c ∈ D, isDigit c = true) ∧
    (d = chr '0' → D = []) ∧ (intToString n = d :: D ∨ intToString n = chr '-' :: d :: D) := by
  obtain ⟨d, ds, hdec, hlt, hzero, -⟩ := decimal_eq_map n.natAbs
  have hd := hlt d (by simp)
  refine ⟨digitChar d, ds.map digitChar, isDigit_digitChar hd, ?_, ?_, ?_⟩
  · intro c hc
    obtain ⟨x, hx, rfl⟩ := List.mem_map.1 hc
    exact isDigit_digitChar (hlt x (by simp [hx]))
  · intro h
    rw [hzero (digitChar_eq_zero hd h), List.map_nil]
  · unfold intToString
    rw [hdec]
    split
    · exact Or.inr rfl
    · exact Or.inl rfl

section
variable (atod : Str → Float64)

/-- The scan from the first digit on. -/
theorem scanDigits {d : UInt8} {D t : Str} (hd : isDigit d = true) (hD : ∀ c ∈ D, isDigit c = true)
    (hzero : d = chr '0' → D = []) (ht : NumberEnds t) :
    isDigit (peek (d :: D ++ t)) = true ∧ ¬ (peek (d :: D ++ t) = chr '0' ∧ isDigit (peek ((d :: D ++ t).drop 1))) ∧
      (parseFraction ((d :: D ++ t).dropWhile isDigit)).bind parseExponent = some t := by
  obtain ⟨hdigit, hdot, he, hE⟩ := ht
  refine ⟨hd, ?_, ?_⟩
  · rintro ⟨hz, hnext⟩
    rw [hzero hz] at hnext
    exact absurd (hnext.symm.trans hdigit) (by decide)
  · rw [dropWhile_isDigit (by simpa [hd] using hD) hdigit, parseFraction, if_neg hdot]
    show parseExponent t = some t
    rw [parseExponent, if_neg (not_or.2 ⟨he, hE⟩)]

theorem parseNumber_intToString (n : Int) {t : Str} (ht : NumberEnds t) :
    parseNumber atod (intToString n ++ t) = some (atod (intToString n), t) := by
  obtain ⟨d, D, hd, hD, hzero, htext⟩ := intToString_cases n
  obtain ⟨hdigit, hnext, hscan⟩ := scanDigits hd hD hzero ht
  obtain ⟨p, hfrac, hexp⟩ := Option.bind_eq_some_iff.1 hscan
  have hlexeme : (intToString n ++ t).take ((intToString n ++ t).length - t.length) = intToString n := by
    simp
  have hstart : (if peek (intToString n ++ t) = chr '+' ∨ peek (intToString n ++ t) = chr '-'
      then (intToString n ++ t).drop 1 else intToString n ++ t) = d :: D ++ t := by
    have hsign : ∀ c : UInt8, isDigit c = true → ¬ (c = chr '+' ∨ c = chr '-') := forall_byte (by decide +kernel)
    rcases htext with h | h
    · rw [h]
      exact if_neg (hsign d hd)
    · rw [h]
      exact if_pos (Or.inr rfl)
  rw [parseNumber]
  simp only [hstart, hdigit, Bool.not_true, Bool.false_eq_true, if_false, if_neg hnext, hfrac]
  show (parseExponent p).bind _ = _
  rw [hexp]
  exact congrArg (fun s => some (atod s, t)) hlexeme

theorem nextToken_intToString (n : Int) {t : Str} (ht : NumberEnds t) :
    nextToken atod (intToString n ++ t) = some (.number (atod (intToString n)), t) := by
  have hnumber := parseNumber_intToString atod n ht
  have hbranch : ∀ c : UInt8, isDigit c = true ∨ c = chr '-' →
      c ≠ chr '"' ∧ ¬ (c = 13 ∨ c = 10 ∨ c = 32 ∨ c = 9) ∧ isIdentFirst c = false := forall_byte (by decide +kernel)
  obtain ⟨c, r, hcons, hfirst⟩ : ∃ c r, intToString n ++ t = c :: r ∧ (isDigit c = true ∨ c = chr '-') := by
    obtain ⟨d, D, hd, -, -, h | h⟩ := intToString_cases n
    · exact ⟨d, D ++ t, by rw [h]; rfl, Or.inl hd⟩
    · exact ⟨chr '-', d :: D ++ t, by rw [h]; rfl, Or.inr rfl⟩
  obtain ⟨hquote, hspace, hident⟩ := hbranch c hfirst
  rw [hcons] at hnumber ⊢
  rw [nextToken, if_neg hquote, if_neg hspace, if_neg (by simp [hident]), if_pos hfirst.symm, hnumber]
  rfl

theorem parseJSON_intToString (n : Int) :
    parseJSON atod (intToString n) = some (.number (atod (intToString n))) := by
  have htok := nextToken_intToString atod n (t := []) (by decide)
  rw [List.append_nil] at htok
  rw [parseJSON, htok]
  rfl

theorem parseJSON_null : parseJSON atod (str "null") = some .null := rfl

/-! ## Lists of numbers and the object of an error -/

/-- A list of integers, without white space. -/
def listText : List Int → Str
  | [] => str "[]"
  | n :: ns => chr '[' :: (intToString n ++ ((ns.flatMap fun m => chr ',' :: intToString m) ++ [chr ']']))

theorem numberEnds_items (ns : List Int) : NumberEnds ((ns.flatMap fun m => chr ',' :: intToString m) ++ [chr ']']) := by
  cases ns with
  | nil => decide
  | cons n ns => exact (by decide : NumberEnds [chr ','])

theorem length_le_items (ns : List Int) : ns.length ≤ (ns.flatMap fun m => chr ',' :: intToString m).length := by
  induction ns with
  | nil => simp
  | cons m ns ih =>
    simp only [List.flatMap_cons, List.length_append, List.length_cons]
    omega

theorem parseElements_items (n : Int) (ns : List Int) {k : Nat} (hk : ns.length + 1 < k) :
    parseElements atod k (.number (atod (intToString n))) ((ns.flatMap fun m => chr ',' :: intToString m) ++ [chr ']']) =
      some ((n :: ns).map fun m => .number (atod (intToString m)), .char (chr ']'), []) := by
  induction ns generalizing n k with
  | nil =>
    obtain ⟨k, rfl⟩ : ∃ m, k = m + 2 := ⟨k - 2, by simp at hk; omega⟩
    rfl
  | cons m ns ih =>
    simp only [List.length_cons] at hk
    obtain ⟨k, rfl⟩ : ∃ j, k = j + 2 := ⟨k - 2, by omega⟩
    have hrest := ih m (show ns.length + 1 < k + 1 by omega)
    have htok := nextToken_intToString atod m (numberEnds_items ns)
    have hcomma : nextToken atod (chr ',' :: (intToString m ++ ((ns.flatMap fun m => chr ',' :: intToString m) ++
        [chr ']']))) = some (.char (chr ','), intToString m ++ ((ns.flatMap fun m => chr ',' :: intToString m) ++
        [chr ']'])) := rfl
    rw [List.flatMap_cons, List.append_assoc, List.cons_append, parseElements, parseValue, hcomma]
    simp [htok, hrest]

theorem parseJSON_listText (ns : List Int) :
    parseJSON atod (listText ns) = some (.array (ns.map fun n => .number (atod (intToString n)))) := by
  cases ns with
  | nil => rfl
  | cons n ns =>
    have htok := nextToken_intToString atod n (numberEnds_items ns)
    have hlen := length_le_items ns
    have hitems : ns.length + 1 < 2 * (listText (n :: ns)).length + 1 := by
      simp only [listText, List.length_cons, List.length_append]
      omega
    have hbracket : nextToken atod (listText (n :: ns)) = some (.char (chr '['), (listText (n :: ns)).tail) := rfl
    rw [parseJSON, hbracket]
    show (parseValue atod (2 * (listText (n :: ns)).length + 1 + 1) (.char (chr '[')) (listText (n :: ns)).tail).bind _ = _
    have hvalue : parseValue atod (2 * (listText (n :: ns)).length + 1 + 1) (.char (chr '[')) (listText (n :: ns)).tail =
        some (.array ((n :: ns).map fun m => .number (atod (intToString m))), .eof, []) := by
      rw [parseValue, if_neg (by decide), if_pos rfl]
      show (nextToken atod (intToString n ++ _)).bind _ = _
      rw [htok]
      show (parseElements atod _ _ _).bind _ = _
      rw [parseElements_items atod n ns hitems]
      rfl
    rw [hvalue]
    rfl

/-- The loop over the members reads one string member. -/
theorem parseMembers_string (k : Nat) (name : List UInt16) (s : Str) :
    parseMembers atod (k + 2) [] (.string name) (chr ':' :: (camlString s ++ [125])) =
      if Legible s then some ([(name, .string (units s))], .char 125, []) else none := by
  have htok := nextToken_camlString atod s [125]
  have hcolon : nextToken atod (chr ':' :: (camlString s ++ [125])) =
      some (.char (chr ':'), camlString s ++ [125]) := rfl
  rw [parseMembers, hcolon]
  show (expect atod (chr ':') (.char (chr ':')) (camlString s ++ [125])).bind _ = _
  rw [expect, if_pos rfl, htok]
  split
  · rfl
  · rfl

/-- **The text for a failed operation is an object whenever the message is legible**, and no JSON otherwise. -/
theorem parseJSON_error (msg : Str) :
    parseJSON atod (str "\x7b\"error\":" ++ camlString msg ++ str "\x7d") =
      if Legible msg then some (.object [(units (str "error"), .string (units msg))]) else none := by
  have htext : str "\x7b\"error\":" ++ camlString msg ++ str "\x7d" =
      123 :: (camlString (str "error") ++ chr ':' :: (camlString msg ++ [125])) := by
    rw [List.append_assoc]
    rfl
  have hname := nextToken_camlString atod (str "error") (chr ':' :: (camlString msg ++ [125]))
  rw [if_pos (by decide)] at hname
  rw [htext]
  generalize hlen : 2 * (123 :: (camlString (str "error") ++ chr ':' :: (camlString msg ++ [125]))).length + 2 = fuel
  obtain ⟨k, rfl⟩ : ∃ k, fuel = k + 3 := ⟨fuel - 3, by simp only [List.length_cons] at hlen; omega⟩
  rw [parseJSON, hlen]
  show (parseValue atod (k + 3) (.char 123) _).bind _ = _
  rw [parseValue, if_pos rfl, hname]
  show ((parseMembers atod (k + 2) [] (.string (units (str "error"))) _).bind _).bind _ = _
  rw [parseMembers_string]
  split
  · rfl
  · rfl

end

end MirageLambda.Qjs
