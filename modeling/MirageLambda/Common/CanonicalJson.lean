import MirageLambda.Lib.Float64
import MirageLambda.Common.Error

/-!
# Canonical JSON (common/canonical_json.ml)

`Json` is the tree type of `Yojson.Safe` (2.2.2) with all its constructors, `CanonicalJson` the
type of the module. Functions that recurse through lists in the source (`List.map`, `List.iter`, the
`loop`s of `of_yojson`) have one companion for lists and one for object members.

`Yojson` itself is a third-party package: `Yojson` below is what the sources use of it, an arbitrary
partial reader (a `Json_error` carries its message) and two printers.
-/

namespace MirageLambda
open OCaml

/-- `Yojson.Safe.t`. -/
inductive Json where
  | null
  | bool (b : Bool)
  | int (n : Int)
  | intlit (s : Str)
  | float (f : Float64)
  | string (s : Str)
  | assoc (xs : List (Str × Json))
  | list (xs : List Json)
  | tuple (xs : List Json)
  | variant (name : Str) (arg : Option Json)

/-- The part of `Yojson.Safe` the sources call. -/
structure Yojson where
  fromString : Str → Except Str Json
  toString : Json → Str
  prettyToString : Json → Str

/-- `match List.assoc_opt name fields with Some (`String s) -> s | _ -> ""`. -/
def stringMember (fields : List (Str × Json)) (name : Str) : Str :=
  match fields.lookup name with
  | some (.string s) => s
  | _ => []

/-- `Canonical_json.t` (canonical_json.ml:14). -/
inductive CanonicalJson where
  | null
  | bool (b : Bool)
  | int (n : Int64)
  | float (f : Float64)
  | string (s : Str)
  | array (xs : List CanonicalJson)
  | object (xs : List (Str × CanonicalJson))

namespace CanonicalJson

/-! ## `of_yojson` (canonical_json.ml:23) -/

mutual
def ofYojson : Json → Outcome Str CanonicalJson
  | .null => .ok .null
  | .bool b => .ok (.bool b)
  | .int n => .ok (.int (Int64.ofInt n))
  | .intlit s => match parseIntnat 64 s with
    | some n => .ok (.int (Int64.ofInt n))
    | none => .error (str "non-canonical integer literal")
  | .float f => .ok (.float f)
  | .string s => .ok (.string s)
  | .list xs => match ofYojsonList xs with
    | .ok vs => .ok (.array vs)
    | .error e => .error e
    | .raised x => .raised x
  | .assoc xs => match ofYojsonFields xs with
    | .ok vs => .ok (.object vs)
    | .error e => .error e
    | .raised x => .raised x
  | .tuple _ => .error (str "unsupported json variant (tuple/variant) for canonical json")
  | .variant _ _ => .error (str "unsupported json variant (tuple/variant) for canonical json")

/-- The `loop` over a list: the first error wins. -/
def ofYojsonList : List Json → Outcome Str (List CanonicalJson)
  | [] => .ok []
  | x :: xs => match ofYojson x with
    | .error e => .error e
    | .raised x => .raised x
    | .ok v => match ofYojsonList xs with
      | .ok vs => .ok (v :: vs)
      | .error e => .error e
      | .raised x => .raised x

/-- The `loop` over object members. -/
def ofYojsonFields : List (Str × Json) → Outcome Str (List (Str × CanonicalJson))
  | [] => .ok []
  | (k, x) :: xs => match ofYojson x with
    | .error e => .error e
    | .raised x => .raised x
    | .ok v => match ofYojsonFields xs with
      | .ok vs => .ok ((k, v) :: vs)
      | .error e => .error e
      | .raised x => .raised x
end

mutual
theorem ofYojson_returns : ∀ j : Json, (ofYojson j).Returns
  | .null | .bool _ | .int _ | .float _ | .string _ | .tuple _ | .variant _ _ => by simp [ofYojson]
  | .intlit s => by
    unfold ofYojson
    split <;> simp
  | .list xs => by
    have h := ofYojsonList_returns xs
    unfold ofYojson
    split
    · simp
    · simp
    · rename_i e he
      exact absurd he (h e)
  | .assoc xs => by
    have h := ofYojsonFields_returns xs
    unfold ofYojson
    split
    · simp
    · simp
    · rename_i e he
      exact absurd he (h e)

theorem ofYojsonList_returns : ∀ xs : List Json, (ofYojsonList xs).Returns
  | [] => by simp [ofYojsonList]
  | x :: xs => by
    have h1 := ofYojson_returns x
    have h2 := ofYojsonList_returns xs
    unfold ofYojsonList
    split
    · simp
    · rename_i e he
      exact absurd he (h1 e)
    · split
      · simp
      · simp
      · rename_i e he
        exact absurd he (h2 e)

theorem ofYojsonFields_returns : ∀ xs : List (Str × Json), (ofYojsonFields xs).Returns
  | [] => by simp [ofYojsonFields]
  | (k, x) :: xs => by
    have h1 := ofYojson_returns x
    have h2 := ofYojsonFields_returns xs
    unfold ofYojsonFields
    split
    · simp
    · rename_i e he
      exact absurd he (h1 e)
    · split
      · simp
      · simp
      · rename_i e he
        exact absurd he (h2 e)
end

/-! ## `sort` (canonical_json.ml:57) -/

/-- `List.sort (fun (a, _) (b, _) -> String.compare a b)`: a stable sort on the keys. -/
def sortMembers (xs : List (Str × CanonicalJson)) : List (Str × CanonicalJson) :=
  xs.insertionSort fun a b => compare a.1 b.1 ≠ .gt

-- The source sorts the members before it sorts their values; keys do not change on the way, so
-- the order of the two passes does not matter.
mutual
def sort : CanonicalJson → CanonicalJson
  | .array xs => .array (sortList xs)
  | .object xs => .object (sortMembers (sortFields xs))
  | .null => .null
  | .bool b => .bool b
  | .int n => .int n
  | .float f => .float f
  | .string s => .string s

def sortList : List CanonicalJson → List CanonicalJson
  | [] => []
  | x :: xs => sort x :: sortList xs

def sortFields : List (Str × CanonicalJson) → List (Str × CanonicalJson)
  | [] => []
  | (k, x) :: xs => (k, sort x) :: sortFields xs
end

/-! ## `to_string` (canonical_json.ml:65-117) -/

/-- One byte under `escape_string_buf` (canonical_json.ml:72). -/
def escapeByte (c : UInt8) : Str :=
  if c = chr '"' then str "\\\""
  else if c = chr '\\' then str "\\\\"
  else if c = 10 then str "\\n"
  else if c = 13 then str "\\r"
  else if c = 9 then str "\\t"
  else if c = 8 then str "\\b"
  else if c = 12 then str "\\f"
  else if c < 32 then str "\\u00" ++ [hexDigit (c.toNat / 16), hexDigit (c.toNat % 16)]
  else [c]

/-- `escape_string_buf`. -/
def escapeString (s : Str) : Str := [chr '"'] ++ s.flatMap escapeByte ++ [chr '"']

/-- The `Float` case of `encode_buf`. -/
def encodeFloat (f : Float64) : Str :=
  if f.isInteger && f.absLt1e15 then intToString f.toInt else f.g17

-- `encode_buf`; the companions are the `List.iter` over the elements after the first.
mutual
def encode : CanonicalJson → Str
  | .null => str "null"
  | .bool b => if b then str "true" else str "false"
  | .int n => intToString n.toInt
  | .float f => encodeFloat f
  | .string s => escapeString s
  | .array [] => str "[]"
  | .array (x :: rest) => [chr '['] ++ encode x ++ encodeRest rest ++ [chr ']']
  | .object [] => [123, 125]
  | .object ((k, v) :: rest) =>
    [123] ++ escapeString k ++ [chr ':'] ++ encode v ++ encodeMembers rest ++ [125]

def encodeRest : List CanonicalJson → Str
  | [] => []
  | x :: xs => [chr ','] ++ encode x ++ encodeRest xs

def encodeMembers : List (Str × CanonicalJson) → Str
  | [] => []
  | (k, v) :: xs => [chr ','] ++ escapeString k ++ [chr ':'] ++ encode v ++ encodeMembers xs
end

/-- `Canonical_json.to_string` (canonical_json.ml:113). -/
def toString (v : CanonicalJson) : Str := encode (sort v)

/-! ## The tree of a canonical value

`jsonTree v` is what Yojson reads from the text of `v`: an integer literal becomes `` `Int `` when it
fits OCaml's 63-bit `int` and `` `Intlit `` otherwise. -/

mutual
def jsonTree : CanonicalJson → Json
  | .null => .null
  | .bool b => .bool b
  | .int n => if -2 ^ 62 ≤ n.toInt ∧ n.toInt < 2 ^ 62 then .int n.toInt else .intlit (intToString n.toInt)
  | .float f => .float f
  | .string s => .string s
  | .array xs => .list (jsonTreeList xs)
  | .object xs => .assoc (jsonTreeFields xs)

def jsonTreeList : List CanonicalJson → List Json
  | [] => []
  | x :: xs => jsonTree x :: jsonTreeList xs

def jsonTreeFields : List (Str × CanonicalJson) → List (Str × Json)
  | [] => []
  | (k, x) :: xs => (k, jsonTree x) :: jsonTreeFields xs
end

-- Reading the tree back gives the value, integers outside 63 bits through `Int64.of_string`.
mutual
theorem ofYojson_jsonTree : ∀ v : CanonicalJson, ofYojson (jsonTree v) = .ok v
  | .null | .bool _ | .float _ | .string _ => by simp [jsonTree, ofYojson]
  | .int n => by
    unfold jsonTree
    split
    · simp [ofYojson, Int64.ofInt_toInt]
    · have hread := parseIntnat_intToString 64 (by omega) (by omega) n.le_toInt n.toInt_lt
      simp [ofYojson, hread, Int64.ofInt_toInt]
  | .array xs => by
    have h := ofYojsonList_jsonTree xs
    simp [jsonTree, ofYojson, h]
  | .object xs => by
    have h := ofYojsonFields_jsonTree xs
    simp [jsonTree, ofYojson, h]

theorem ofYojsonList_jsonTree : ∀ xs : List CanonicalJson, ofYojsonList (jsonTreeList xs) = .ok xs
  | [] => by simp [jsonTreeList, ofYojsonList]
  | x :: xs => by
    have h1 := ofYojson_jsonTree x
    have h2 := ofYojsonList_jsonTree xs
    simp [jsonTreeList, ofYojsonList, h1, h2]

theorem ofYojsonFields_jsonTree :
    ∀ xs : List (Str × CanonicalJson), ofYojsonFields (jsonTreeFields xs) = .ok xs
  | [] => by simp [jsonTreeFields, ofYojsonFields]
  | (k, x) :: xs => by
    have h1 := ofYojson_jsonTree x
    have h2 := ofYojsonFields_jsonTree xs
    simp [jsonTreeFields, ofYojsonFields, h1, h2]
end

/-- No `Float` node anywhere. -/
inductive FloatFree : CanonicalJson → Prop where
  | null : FloatFree .null
  | bool (b : Bool) : FloatFree (.bool b)
  | int (n : Int64) : FloatFree (.int n)
  | string (s : Str) : FloatFree (.string s)
  | array (xs : List CanonicalJson) : (∀ x ∈ xs, FloatFree x) → FloatFree (.array xs)
  | object (xs : List (Str × CanonicalJson)) : (∀ x ∈ xs, FloatFree x.2) → FloatFree (.object xs)

attribute [simp] FloatFree.null FloatFree.bool FloatFree.int FloatFree.string

@[simp] theorem floatFree_array {xs : List CanonicalJson} :
    FloatFree (.array xs) ↔ ∀ x ∈ xs, FloatFree x :=
  ⟨fun h => by cases h; assumption, .array xs⟩

@[simp] theorem floatFree_object {xs : List (Str × CanonicalJson)} :
    FloatFree (.object xs) ↔ ∀ x ∈ xs, FloatFree x.2 :=
  ⟨fun h => by cases h; assumption, .object xs⟩

end CanonicalJson
end MirageLambda
