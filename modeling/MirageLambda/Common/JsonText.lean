import MirageLambda.Common.CanonicalText

/-!
# Texts of plain trees

What the registry relies on in Yojson: `from_string` reads back what the printers wrote for trees of objects, lists
and strings (`ReadsBackPlain`), and refuses a text that breaks off (`RefusesCut`). Yojson is a parameter everywhere
else; here is a printer and a reader with both properties, so that they can be assumed together. The printer puts no
white space between tokens; the reader accepts what the printer writes and nothing else.
-/

namespace MirageLambda
open OCaml CanonicalJson

/-- Trees of objects, lists and strings. -/
inductive Json.Plain : Json → Prop where
  | string (s : Str) : Plain (.string s)
  | list {xs : List Json} (h : ∀ x ∈ xs, Plain x) : Plain (.list xs)
  | assoc {ms : List (Str × Json)} (h : ∀ m ∈ ms, Plain m.2) : Plain (.assoc ms)

/-- `from_string` undoes `pretty_to_string` on plain trees. -/
def Yojson.ReadsBackPlain (Y : Yojson) : Prop := ∀ j : Json, j.Plain → Y.fromString (Y.prettyToString j) = .ok j

/-- The text of a plain tree is not JSON before its last byte: `from_string` raises `Json_error`. -/
def Yojson.RefusesCut (Y : Yojson) : Prop :=
  ∀ j : Json, j.Plain → ∀ n, n < (Y.prettyToString j).length → ∃ m, Y.fromString ((Y.prettyToString j).take n) = .error m

namespace JsonText

/-! ## The printer -/

mutual
def print : Json → Str
  | .string s => escapeString s
  | .list [] => str "[]"
  | .list (x :: xs) => chr '[' :: (print x ++ printItems xs)
  | .assoc [] => [123, 125]
  | .assoc ((k, v) :: ms) => 123 :: (escapeString k ++ chr ':' :: (print v ++ printMembers ms))
  | _ => str "null"

/-- The items after the first, and the bracket. -/
def printItems : List Json → Str
  | [] => str "]"
  | x :: xs => chr ',' :: (print x ++ printItems xs)

def printMembers : List (Str × Json) → Str
  | [] => [125]
  | (k, v) :: ms => chr ',' :: (escapeString k ++ chr ':' :: (print v ++ printMembers ms))
end

/-! ## The reader -/

/-- One byte of a string, with its escape. -/
def readByte : Str → Option (UInt8 × Str)
  | [] => none
  | c :: t =>
    if c = chr '\\' then match t with
      | [] => none
      | a :: t =>
        if a = chr 'u' then match t with
          | _ :: _ :: h :: l :: t => some (hexPair h l, t)
          | _ => none
        else some (shortEscape a, t)
    else some (c, t)

/-- The bytes of a string up to the closing quote. -/
def readBytes : Nat → Str → Option (Str × Str)
  | 0, _ => none
  | _ + 1, [] => none
  | n + 1, c :: t =>
    if c = chr '"' then some ([], t)
    else do
      let (b, t) ← readByte (c :: t)
      let (s, t) ← readBytes n t
      some (b :: s, t)

def readString (n : Nat) : Str → Option (Str × Str)
  | [] => none
  | c :: t => if c = chr '"' then readBytes n t else none

/-- A byte that must stand next. -/
def skip (c : UInt8) : Str → Option Str
  | [] => none
  | d :: t => if d = c then some t else none

mutual
def readValue : Nat → Str → Option (Json × Str)
  | 0, _ => none
  | _ + 1, [] => none
  | n + 1, c :: t =>
    if c = chr '"' then do
      let (s, t) ← readBytes n t
      some (.string s, t)
    else if c = chr '[' then
      if t.head? = some (chr ']') then some (.list [], t.tail)
      else do
        let (x, t) ← readValue n t
        let (xs, t) ← readItems n t
        some (.list (x :: xs), t)
    else if c = 123 then
      if t.head? = some 125 then some (.assoc [], t.tail)
      else do
        let (k, t) ← readString n t
        let t ← skip (chr ':') t
        let (v, t) ← readValue n t
        let (ms, t) ← readMembers n t
        some (.assoc ((k, v) :: ms), t)
    else none

def readItems : Nat → Str → Option (List Json × Str)
  | 0, _ => none
  | _ + 1, [] => none
  | n + 1, c :: t =>
    if c = chr ']' then some ([], t)
    else if c = chr ',' then do
      let (x, t) ← readValue n t
      let (xs, t) ← readItems n t
      some (x :: xs, t)
    else none

def readMembers : Nat → Str → Option (List (Str × Json) × Str)
  | 0, _ => none
  | _ + 1, [] => none
  | n + 1, c :: t =>
    if c = 125 then some ([], t)
    else if c = chr ',' then do
      let (k, t) ← readString n t
      let t ← skip (chr ':') t
      let (v, t) ← readValue n t
      let (ms, t) ← readMembers n t
      some ((k, v) :: ms, t)
    else none
end

/-! ## Strings -/

theorem readByte_escapeByte (c : UInt8) (t : Str) : readByte (escapeByte c ++ t) = some (c, t) := by
  rcases escapeByte_cases c with ⟨hc, -, hslash⟩ | ⟨a, hc, hu, ha⟩ | ⟨h, l, hc, hhex⟩
  · simp [hc, readByte, hslash]
  · simp [hc, readByte, hu, ha]
  · simp [hc, readByte, hhex]

theorem length_le_flatMap_escapeByte (s : Str) : s.length ≤ (s.flatMap escapeByte).length := by
  induction s with
  | nil => simp
  | cons c s ih =>
    have hpos : 1 ≤ (escapeByte c).length := by
      rcases escapeByte_cases c with ⟨hc, -⟩ | ⟨a, hc, -⟩ | ⟨h, l, hc, -⟩ <;> simp [hc]
    simp only [List.flatMap_cons, List.length_append, List.length_cons]
    omega

theorem readBytes_escaped (s t : Str) {n : Nat} (hn : s.length < n) :
    readBytes n (s.flatMap escapeByte ++ chr '"' :: t) = some (s, t) := by
  induction s generalizing n with
  | nil =>
    obtain ⟨n, rfl⟩ : ∃ m, n = m + 1 := ⟨n - 1, by simp at hn; omega⟩
    simp [readBytes]
  | cons c s ih =>
    simp only [List.length_cons] at hn
    obtain ⟨n, rfl⟩ : ∃ m, n = m + 1 := ⟨n - 1, by omega⟩
    have hbyte := readByte_escapeByte c (s.flatMap escapeByte ++ chr '"' :: t)
    rw [List.flatMap_cons, List.append_assoc]
    cases htext : escapeByte c ++ (s.flatMap escapeByte ++ chr '"' :: t) with
    | nil => simp at htext
    | cons b rest =>
      have hquote : b ≠ chr '"' := by
        rintro rfl
        exact escapeByte_ne_quote c _ rest htext
      rw [htext] at hbyte
      simp only [readBytes, if_neg hquote, hbyte]
      simp [ih (show s.length < n by omega)]

/-- The text of a string after its opening quote. -/
theorem escapeString_eq (s t : Str) : escapeString s ++ t = chr '"' :: (s.flatMap escapeByte ++ chr '"' :: t) := by
  simp [escapeString]

theorem length_lt_escapeString (s : Str) : s.length + 1 < (escapeString s).length := by
  have hle := length_le_flatMap_escapeByte s
  simp only [escapeString, List.length_append, List.length_cons, List.length_nil]
  omega

theorem readString_escapeString (s t : Str) {n : Nat} (hn : (escapeString s).length ≤ n + 1) :
    readString n (escapeString s ++ t) = some (s, t) := by
  have hlen := length_lt_escapeString s
  rw [escapeString_eq, readString, if_pos rfl]
  exact readBytes_escaped s t (by omega)

/-! ## Reading what was printed -/

/-- No value starts with a closing bracket. -/
theorem head?_print (j : Json) (t : Str) : (print j ++ t).head? ≠ some (chr ']') := by
  cases j with
  | string s =>
    rw [print, escapeString_eq]
    simp
    decide
  | list xs => cases xs <;> simp [print, str, chr]
  | assoc ms =>
    cases ms with
    | nil => simp [print, chr]
    | cons m ms => simp [print, chr]
  | _ => simp [print, str, chr]

/-- The reader gives a tree back from its text, with as much fuel as the text is long. -/
def Reads (j : Json) : Prop :=
  ∀ n t, (print j).length ≤ n → readValue n (print j ++ t) = some (j, t)

theorem readItems_printItems {xs : List Json} (h : ∀ x ∈ xs, Reads x) (n : Nat) (t : Str)
    (hn : (printItems xs).length ≤ n) : readItems n (printItems xs ++ t) = some (xs, t) := by
  induction xs generalizing n with
  | nil =>
    obtain ⟨n, rfl⟩ : ∃ m, n = m + 1 := ⟨n - 1, by simp [printItems, str] at hn; omega⟩
    simp [printItems, readItems, str, chr]
  | cons x xs ih =>
    simp only [printItems, List.length_cons, List.length_append] at hn
    obtain ⟨n, rfl⟩ : ∃ m, n = m + 1 := ⟨n - 1, by omega⟩
    have hx := h x (by simp) n (printItems xs ++ t) (by omega)
    have hxs := ih (fun y hy => h y (by simp [hy])) n (by omega)
    have hcomma : chr ',' ≠ chr ']' := by decide
    simp only [printItems, List.cons_append, List.append_assoc, readItems, if_neg hcomma, if_true, hx]
    simp [hxs]

theorem readMembers_printMembers {ms : List (Str × Json)} (h : ∀ m ∈ ms, Reads m.2) (n : Nat) (t : Str)
    (hn : (printMembers ms).length ≤ n) : readMembers n (printMembers ms ++ t) = some (ms, t) := by
  induction ms generalizing n with
  | nil =>
    obtain ⟨n, rfl⟩ : ∃ m, n = m + 1 := ⟨n - 1, by simp [printMembers] at hn; omega⟩
    simp [printMembers, readMembers]
  | cons m ms ih =>
    obtain ⟨k, v⟩ := m
    simp only [printMembers, List.length_cons, List.length_append] at hn
    obtain ⟨n, rfl⟩ : ∃ m, n = m + 1 := ⟨n - 1, by omega⟩
    have hk := readString_escapeString k (chr ':' :: (print v ++ (printMembers ms ++ t)))
      (show (escapeString k).length ≤ n + 1 by omega)
    have hv := h (k, v) (by simp) n (printMembers ms ++ t) (by simp; omega)
    have hms := ih (fun y hy => h y (by simp [hy])) n (by omega)
    have hcomma : chr ',' ≠ 125 := by decide
    simp only [printMembers, List.cons_append, List.append_assoc, readMembers, if_neg hcomma, if_true, hk]
    simp [skip, hv, hms]

theorem reads_of_plain {j : Json} (h : j.Plain) : Reads j := by
  induction h with
  | string s =>
    intro n t hn
    have hlen := length_lt_escapeString s
    rw [print] at hn
    obtain ⟨n, rfl⟩ : ∃ m, n = m + 1 := ⟨n - 1, by omega⟩
    rw [print, escapeString_eq]
    simp [readValue, readBytes_escaped s t (show s.length < n by omega)]
  | @list xs _ ih =>
    intro n t hn
    cases xs with
    | nil =>
      obtain ⟨n, rfl⟩ : ∃ m, n = m + 1 := ⟨n - 1, by simp [print, str] at hn; omega⟩
      simp [print, readValue, str, chr]
    | cons x xs =>
      simp only [print, List.length_cons, List.length_append] at hn
      obtain ⟨n, rfl⟩ : ∃ m, n = m + 1 := ⟨n - 1, by omega⟩
      have hx := ih x (by simp) n (printItems xs ++ t) (by omega)
      have hitems : ∀ y ∈ xs, Reads y := fun y hy => ih y (by simp [hy])
      have hxs := readItems_printItems hitems n t (by omega)
      have hquote : chr '[' ≠ chr '"' := by decide
      simp only [print, List.cons_append, List.append_assoc, readValue, if_neg hquote, if_true,
        if_neg (head?_print x _), hx]
      simp [hxs]
  | @assoc ms _ ih =>
    intro n t hn
    cases ms with
    | nil =>
      obtain ⟨n, rfl⟩ : ∃ m, n = m + 1 := ⟨n - 1, by simp [print] at hn; omega⟩
      simp [print, readValue, chr]
    | cons m ms =>
      obtain ⟨k, v⟩ := m
      simp only [print, List.length_cons, List.length_append] at hn
      obtain ⟨n, rfl⟩ : ∃ m, n = m + 1 := ⟨n - 1, by omega⟩
      have hk := readString_escapeString k (chr ':' :: (print v ++ (printMembers ms ++ t)))
        (show (escapeString k).length ≤ n + 1 by omega)
      have hv := ih (k, v) (by simp) n (printMembers ms ++ t) (by simp; omega)
      have hmembers : ∀ m ∈ ms, Reads m.2 := fun m hm => ih m (by simp [hm])
      have hms := readMembers_printMembers hmembers n t (by omega)
      have hquote : (123 : UInt8) ≠ chr '"' := by decide
      have hbracket : (123 : UInt8) ≠ chr '[' := by decide
      have hhead : (escapeString k ++ chr ':' :: (print v ++ (printMembers ms ++ t))).head? ≠ some 125 := by
        rw [escapeString_eq]
        simp
        decide
      simp only [print, List.cons_append, List.append_assoc, readValue, if_neg hquote, if_neg hbracket, if_true,
        if_neg hhead, hk]
      simp [skip, hv, hms]

/-- What the readers make in `n` steps is plain. -/
structure ReadsPlain (n : Nat) : Prop where
  value : ∀ {t j r}, readValue n t = some (j, r) → j.Plain
  items : ∀ {t xs r}, readItems n t = some (xs, r) → ∀ x ∈ xs, x.Plain
  members : ∀ {t ms r}, readMembers n t = some (ms, r) → ∀ m ∈ ms, m.2.Plain

theorem ReadsPlain.value_succ {n : Nat} (h : ReadsPlain n) {t r : Str} {j : Json}
    (hread : readValue (n + 1) t = some (j, r)) : j.Plain := by
  cases t with
  | nil => simp [readValue] at hread
  | cons c t =>
    simp only [readValue, Option.bind_eq_bind] at hread
    split at hread
    · obtain ⟨a, -, ha⟩ := Option.bind_eq_some_iff.1 hread
      cases ha
      exact .string _
    split at hread
    · split at hread
      · cases hread
        exact .list (by simp)
      · obtain ⟨x, hx, hread⟩ := Option.bind_eq_some_iff.1 hread
        obtain ⟨xs, hxs, hread⟩ := Option.bind_eq_some_iff.1 hread
        cases hread
        exact .list (List.forall_mem_cons.2 ⟨h.value hx, h.items hxs⟩)
    split at hread
    · split at hread
      · cases hread
        exact .assoc (by simp)
      · obtain ⟨k, -, hread⟩ := Option.bind_eq_some_iff.1 hread
        obtain ⟨t', -, hread⟩ := Option.bind_eq_some_iff.1 hread
        obtain ⟨v, hv, hread⟩ := Option.bind_eq_some_iff.1 hread
        obtain ⟨ms, hms, hread⟩ := Option.bind_eq_some_iff.1 hread
        cases hread
        exact .assoc (List.forall_mem_cons.2 ⟨h.value hv, h.members hms⟩)
    · cases hread

theorem ReadsPlain.items_succ {n : Nat} (h : ReadsPlain n) {t r : Str} {xs : List Json}
    (hread : readItems (n + 1) t = some (xs, r)) : ∀ x ∈ xs, x.Plain := by
  cases t with
  | nil => simp [readItems] at hread
  | cons c t =>
    simp only [readItems, Option.bind_eq_bind] at hread
    split at hread
    · cases hread
      simp
    split at hread
    · obtain ⟨x, hx, hread⟩ := Option.bind_eq_some_iff.1 hread
      obtain ⟨xs, hxs, hread⟩ := Option.bind_eq_some_iff.1 hread
      cases hread
      exact List.forall_mem_cons.2 ⟨h.value hx, h.items hxs⟩
    · cases hread

theorem ReadsPlain.members_succ {n : Nat} (h : ReadsPlain n) {t r : Str} {ms : List (Str × Json)}
    (hread : readMembers (n + 1) t = some (ms, r)) : ∀ m ∈ ms, m.2.Plain := by
  cases t with
  | nil => simp [readMembers] at hread
  | cons c t =>
    simp only [readMembers, Option.bind_eq_bind] at hread
    split at hread
    · cases hread
      simp
    split at hread
    · obtain ⟨k, -, hread⟩ := Option.bind_eq_some_iff.1 hread
      obtain ⟨t', -, hread⟩ := Option.bind_eq_some_iff.1 hread
      obtain ⟨v, hv, hread⟩ := Option.bind_eq_some_iff.1 hread
      obtain ⟨ms, hms, hread⟩ := Option.bind_eq_some_iff.1 hread
      cases hread
      exact List.forall_mem_cons.2 ⟨h.value hv, h.members hms⟩
    · cases hread

/-- The reader makes plain trees only. -/
theorem readsPlain (n : Nat) : ReadsPlain n := by
  induction n with
  | zero => exact ⟨by simp [readValue], by simp [readItems], by simp [readMembers]⟩
  | succ n ih => exact ⟨ih.value_succ, ih.items_succ, ih.members_succ⟩

/-! ## The pair -/

/-- The reader on a whole text, which must be the text of the tree it reads. -/
def read (t : Str) : Except Str Json :=
  match readValue t.length t with
  | some (j, _) => if print j = t then .ok j else .error (str "Invalid token")
  | none => .error (str "Unexpected end of input")

theorem read_eq_ok {t : Str} {j : Json} (h : read t = .ok j) : j.Plain ∧ print j = t := by
  unfold read at h
  split at h
  · rename_i j' r hvalue
    split at h
    · rename_i hprint
      cases h
      exact ⟨(readsPlain _).value hvalue, hprint⟩
    · cases h
  · cases h

/-- The printer and the reader, as what is used of Yojson. -/
def plainYojson : Yojson := { fromString := read, toString := print, prettyToString := print }

theorem readsBackPlain_plainYojson : plainYojson.ReadsBackPlain := by
  intro j hj
  have hread := reads_of_plain hj (print j).length [] (Nat.le_refl _)
  rw [List.append_nil] at hread
  show read (print j) = .ok j
  simp [read, hread]

/-- What is accepted is a printed text, and the text of a plain tree is no proper beginning of another one. -/
theorem refusesCut_plainYojson : plainYojson.RefusesCut := by
  intro j hj n hn
  show ∃ m, read ((print j).take n) = .error m
  have hn : n < (print j).length := hn
  cases hread : read ((print j).take n) with
  | error m => exact ⟨m, rfl⟩
  | ok j' =>
    obtain ⟨hj', hprint⟩ := read_eq_ok hread
    have hwhole := reads_of_plain hj (print j).length [] (Nat.le_refl _)
    have hlen : (print j').length = n := by
      rw [hprint, List.length_take]
      omega
    have hcut := reads_of_plain hj' (print j).length ((print j).drop n) (by omega)
    rw [hprint, List.take_append_drop] at hcut
    rw [List.append_nil, hcut] at hwhole
    have hrest : (print j).drop n = [] := congrArg Prod.snd (Option.some_inj.1 hwhole)
    rw [List.drop_eq_nil_iff] at hrest
    omega

end JsonText
end MirageLambda
