import MirageLambda.Lib.Segment
import MirageLambda.Common.ConstantTime
import MirageLambda.Common.Sha256
import MirageLambda.Common.Manifest

/-!
# The MLB1 bundle format (common/bundle.ml)

Parser and writer, as the source has them. The parser's `off` reference is passed along explicitly;
`parse` is cut at
the points where the source builds a value, and `readEntry` is the part of `read_modules` up to the
finished entry. Offsets and lengths are natural
numbers: the readers return unsigned values, so the `< 0` tests of the source never fire, and the
`Int64` sums they are compared with stay far below 2^63.

| here | bundle.ml |
|---|---|
| `readU32`, `readU16` | `read_u32`, `read_u16` (123, 131) |
| `readPreamble`, `parseJson`, `readModules`, `parseFooter` | the parts of `parse` (168), in order |
| `readEntry`, `readModules` | `read_modules` (207) |
| `be32`, `be16`, `write` | the writer (267-309) |
-/

namespace MirageLambda
open OCaml

namespace Bundle

/-- `invalid` (bundle.ml:12). -/
def invalid (msg : Str) : Error := Error.make .invalidRequest .packageError msg

/-- `validation_err` (bundle.ml:13). -/
def validationErr (x : Validation) : Error := Error.make .invalidManifest .packageError x.toString

/-- `ct_eq_bytes` (bundle.ml:112): the loop of `Digest.constant_time_equal` on raw bytes. -/
def ctEqBytes (a b : Str) : Bool := constantTimeEqual a b

/-- `read_u32` (bundle.ml:123). -/
def readU32 (s : Str) (off : Nat) : Outcome Error Nat :=
  if off + 4 > s.length then .error (invalid (str "u32 out of range"))
  else do
    let a ← get s off
    let b ← get s (off + 1)
    let c ← get s (off + 2)
    let d ← get s (off + 3)
    pure (a.toNat <<< 24 ||| b.toNat <<< 16 ||| c.toNat <<< 8 ||| d.toNat)

/-- `read_u16` (bundle.ml:131). -/
def readU16 (s : Str) (off : Nat) : Outcome Error Nat :=
  if off + 2 > s.length then .error (invalid (str "u16 out of range"))
  else do
    let a ← get s off
    let b ← get s (off + 1)
    pure (a.toNat <<< 8 ||| b.toNat)

/-- `module_entry` (bundle.ml:136). -/
structure ModuleEntry where
  path : ModulePath
  content : Str
  digest : Str
deriving DecidableEq

/-- `Validated.t` (bundle.ml:143). -/
structure Validated where
  headerJson : CanonicalJson
  manifest : Manifest
  manifestJson : CanonicalJson
  modules : List ModuleEntry
  footerDigest : Str
  raw : Str

def maxModuleCount : Nat := 4096
def maxModuleBytes : Nat := 16 * 1024 * 1024
def maxTotalBytes : Nat := 64 * 1024 * 1024
def magic : Str := str "MLB1"

/-- One turn of `read_modules` up to `entry`, with the offset after it (bundle.ml:210-241). -/
def readEntry (s : Str) (off : Nat) : Outcome Error (ModuleEntry × Nat) := do
  let len := s.length
  let pathLen ← readU16 s off
  let off := off + 2
  if pathLen = 0 ∨ pathLen > 1024 then .error (invalid (str "path length out of range"))
  else if off + pathLen > len then .error (invalid (str "path exceeds buffer"))
  else do
    let pathBytes ← sub s off pathLen
    let off := off + pathLen
    let path ← (ModulePath.ofString pathBytes).mapError validationErr
    let contentLen ← readU32 s off
    let off := off + 4
    if contentLen > maxModuleBytes then .error (invalid (str "content length out of range"))
    else if off + 32 > len then .error (invalid (str "digest exceeds buffer"))
    else do
      let digest ← sub s off (32 : Nat)
      let off := off + 32
      if off + contentLen > len then .error (invalid (str "content exceeds buffer"))
      else do
        let content ← sub s off contentLen
        let off := off + contentLen
        let computed := Sha256.hash content
        if !ctEqBytes digest computed then .error (invalid (str "module digest mismatch"))
        else pure ({ path, content, digest }, off)

/-- `read_modules acc n` (bundle.ml:207), with the offset before and after. -/
def readModules (s : Str) : Nat → Nat → List ModuleEntry → Outcome Error (List ModuleEntry × Nat)
  | 0, off, acc => .ok (acc.reverse, off)
  | n + 1, off, acc => do
    let (entry, off) ← readEntry s off
    match acc with
    | prev :: _ =>
      if compare prev.path.toStr entry.path.toStr ≠ .lt then
        .error (invalid (str "modules not sorted by path / duplicate path"))
      else readModules s n off (entry :: acc)
    | [] => readModules s n off (entry :: acc)

/-- `List.fold_left (fun a m -> a + String.length m.content) 0` (bundle.ml:246). -/
def totalBytes (mods : List ModuleEntry) : Nat := mods.foldl (fun a m => a + m.content.length) 0

/-- `Yojson.Safe.from_string` with `Json_error` turned into an error under `label`
(bundle.ml:194-205). -/
def fromString (Y : Yojson) (label : String) (bytes : Str) : Outcome Error Json :=
  match Y.fromString bytes with
  | .ok j => .ok j
  | .error m => .error (invalid (str label ++ str " json: " ++ m))

/-- The JSON half of `parse`: header, then manifest (bundle.ml:194-205). -/
def parseJson (Y : Yojson) (headerBytes manifestBytes : Str) :
    Outcome Error (CanonicalJson × Manifest × CanonicalJson) := do
  let headerYo ← fromString Y "header" headerBytes
  let headerCj ← (CanonicalJson.ofYojson headerYo).mapError invalid
  let manifestYo ← fromString Y "manifest" manifestBytes
  let manifestV ← (Manifest.parse manifestYo).mapError validationErr
  let manifestCj ← (CanonicalJson.ofYojson manifestYo).mapError invalid
  pure (headerCj, manifestV, manifestCj)

/-- What `parse` does after the modules: total size, footer position, footer digest
(bundle.ml:245-262). -/
def parseFooter (s : Str) (off : Nat) (mods : List ModuleEntry) : Outcome Error Str :=
  if totalBytes mods > maxTotalBytes then .error (invalid (str "total source size exceeds cap"))
  else if off + 32 ≠ s.length then .error (invalid (str "footer not at end of buffer"))
  else do
    let footer ← sub s off (32 : Nat)
    let preceding ← sub s (0 : Nat) off
    if !ctEqBytes footer (Sha256.hash preceding) then .error (invalid (str "footer digest mismatch"))
    else pure footer

/-- The start of `parse`: magic, the three lengths, the bytes of header and manifest, the module count
and the offset after them (bundle.ml:169-192). -/
def readPreamble (s : Str) : Outcome Error (Str × Str × Nat × Nat) := do
  let len := s.length
  if len < 16 then .error (invalid (str "bundle too short for header"))
  else do
    let m ← sub s (0 : Nat) (4 : Nat)
    if m ≠ magic then .error (invalid (str "bad magic (not MLB1)"))
    else do
      let headerLength ← readU32 s 4
      let manifestLength ← readU32 s 8
      let moduleCount ← readU32 s 12
      let off := 16
      if moduleCount > maxModuleCount then
        .error (invalid (str "module count " ++ decimal moduleCount ++ str " > " ++ decimal maxModuleCount))
      else if off + headerLength > len then .error (invalid (str "header length exceeds buffer"))
      else do
        let headerBytes ← sub s off headerLength
        let off := off + headerLength
        if off + manifestLength > len then .error (invalid (str "manifest length exceeds buffer"))
        else do
          let manifestBytes ← sub s off manifestLength
          let off := off + manifestLength
          pure (headerBytes, manifestBytes, moduleCount, off)

/-- `Bundle.parse` (bundle.ml:168). -/
def parse (Y : Yojson) (s : Str) : Outcome Error Validated := do
  let (headerBytes, manifestBytes, moduleCount, off) ← readPreamble s
  let (headerJson, manifest, manifestJson) ← parseJson Y headerBytes manifestBytes
  let (modules, off) ← readModules s moduleCount off []
  let footerDigest ← parseFooter s off modules
  pure { headerJson, manifest, manifestJson, modules, footerDigest, raw := s }

/-! ## The writer -/

/-- `be32` (bundle.ml:267). -/
def be32 (n : Nat) : Str :=
  [UInt8.ofNat (n >>> 24), UInt8.ofNat (n >>> 16), UInt8.ofNat (n >>> 8), UInt8.ofNat n]

/-- `be16` (bundle.ml:275). -/
def be16 (n : Nat) : Str := [UInt8.ofNat (n >>> 8), UInt8.ofNat n]

/-- `List.sort (fun a b -> Module_path.compare a.path b.path)` (bundle.ml:288). -/
def sortByPath (mods : List ModuleEntry) : List ModuleEntry :=
  mods.insertionSort fun a b => compare a.path.toStr b.path.toStr ≠ .gt

/-- What the `List.iter` of `write` appends for one module (bundle.ml:299-305). -/
def moduleBytes (m : ModuleEntry) : Str :=
  let pathS := m.path.toStr
  let d := Sha256.hash m.content
  be16 pathS.length ++ pathS ++ be32 m.content.length ++ d ++ m.content

/-- `Bundle.write` (bundle.ml:283). The source does not look at `~manifest` either. -/
def write (header : CanonicalJson) (_manifest : Manifest) (manifestCj : CanonicalJson)
    (mods : List ModuleEntry) : Str :=
  let sorted := sortByPath mods
  let headerStr := header.toString
  let manifestStr := manifestCj.toString
  let soFar := magic ++ be32 headerStr.length ++ be32 manifestStr.length ++ be32 sorted.length ++
    headerStr ++ manifestStr ++ sorted.flatMap moduleBytes
  let footer := Sha256.hash soFar
  soFar ++ footer

/-! ## What the comparison decides -/

/-- **The constant-time comparisons decide equality**, for strings of any lengths. The body common to
both raises on no input, and the accumulated value is 0 exactly when every pair of bytes agrees. -/
theorem constant_time_comparisons_decide (a b : Str) :
    (ctEqBytes a b = true ↔ a = b) ∧
    (constantTimeEqual a b = true ↔ a = b) ∧
    (ctBody a b : Outcome Error Bool) = .ok (decide (a = b)) ∧
    (a.length = b.length →
      (ctLoop a b 0 0 a.length : Outcome Error Nat) = .ok (ctAccumulate a b) ∧
      (ctAccumulate a b = 0 ↔ ∀ i < a.length, a[i]? = b[i]?)) := by
  refine ⟨constantTimeEqual_iff, constantTimeEqual_iff, ?_, fun hlen => ⟨ctLoop_eq hlen, ?_⟩⟩
  · rw [ctBody_eq, Outcome.ok.injEq, Bool.eq_iff_iff, decide_eq_true_eq]
    exact constantTimeEqual_iff
  · rw [ctAccumulate_eq_zero]
    refine forall₂_congr fun i hi => ?_
    rw [getElem?_eq_byteAt hi, getElem?_eq_byteAt (hlen ▸ hi), Option.some.injEq]

/-! ## What the readers read -/

@[simp] theorem length_be32 (n : Nat) : (be32 n).length = 4 := rfl
@[simp] theorem length_be16 (n : Nat) : (be16 n).length = 2 := rfl

/-- The shifts and `lor`s of the readers put the bytes next to each other. -/
theorem or_bytes (a b c d : UInt8) :
    a.toNat <<< 24 ||| b.toNat <<< 16 ||| c.toNat <<< 8 ||| d.toNat =
      a.toNat * 2 ^ 24 + b.toNat * 2 ^ 16 + c.toNat * 2 ^ 8 + d.toNat := by
  have ha := a.toNat_lt
  have hb := b.toNat_lt
  have hc := c.toNat_lt
  have hd := d.toNat_lt
  rw [Nat.or_assoc, Nat.or_assoc, ← Nat.shiftLeft_add_eq_or_of_lt (i := 8) (by omega)]
  rw [← Nat.shiftLeft_add_eq_or_of_lt (i := 16) (by rw [Nat.shiftLeft_eq]; omega)]
  rw [← Nat.shiftLeft_add_eq_or_of_lt (i := 24) (by simp only [Nat.shiftLeft_eq]; omega)]
  simp only [Nat.shiftLeft_eq]
  omega

theorem or_bytes16 (a b : UInt8) : a.toNat <<< 8 ||| b.toNat = a.toNat * 2 ^ 8 + b.toNat := by
  have hb := b.toNat_lt
  rw [← Nat.shiftLeft_add_eq_or_of_lt (i := 8) (by omega), Nat.shiftLeft_eq]

/-- A byte is the one `n` has at this place. -/
theorem eq_ofNat_iff {b : UInt8} {n : Nat} : b = UInt8.ofNat n ↔ b.toNat = n % 256 := by
  rw [← UInt8.toNat_inj, UInt8.toNat_ofNat']

theorem be32_eq_iff {a b c d : UInt8} {n : Nat} (h : n < 2 ^ 32) :
    be32 n = [a, b, c, d] ↔ n = a.toNat * 2 ^ 24 + b.toNat * 2 ^ 16 + c.toNat * 2 ^ 8 + d.toNat := by
  have ha := a.toNat_lt
  have hb := b.toNat_lt
  have hc := c.toNat_lt
  have hd := d.toNat_lt
  unfold be32
  simp only [List.cons.injEq, and_true, eq_comm (b := a), eq_comm (b := b), eq_comm (b := c),
    eq_comm (b := d), eq_ofNat_iff, Nat.shiftRight_eq_div_pow]
  omega

theorem be16_eq_iff {a b : UInt8} {n : Nat} (h : n < 2 ^ 16) :
    be16 n = [a, b] ↔ n = a.toNat * 2 ^ 8 + b.toNat := by
  have ha := a.toNat_lt
  have hb := b.toNat_lt
  unfold be16
  simp only [List.cons.injEq, and_true, eq_comm (b := a), eq_comm (b := b), eq_ofNat_iff,
    Nat.shiftRight_eq_div_pow]
  omega

/-- **`read_u32` reads `n` exactly where the buffer holds `be32 n`.** -/
theorem readU32_eq_ok {s : Str} {off n : Nat} :
    readU32 s off = .ok n ↔ n < 2 ^ 32 ∧ SegAt s off (be32 n) := by
  unfold readU32
  split
  · rename_i h
    refine iff_of_false nofun ?_
    rintro ⟨_, hseg⟩
    have := hseg.le
    rw [length_be32] at this
    omega
  · rename_i h
    have hseg : SegAt s off [byteAt s off, byteAt s (off + 1), byteAt s (off + 2), byteAt s (off + 3)] := by
      refine segAt_iff_byteAt.2 ⟨by simp; omega, fun i hi => ?_⟩
      simp only [List.length_cons, List.length_nil] at hi
      interval_cases i <;> rfl
    rw [get_nat (by omega), get_nat (by omega), get_nat (by omega), get_nat (by omega)]
    simp only [Outcome.ok_bind, Outcome.pure_eq, Outcome.ok.injEq, or_bytes]
    constructor
    · intro hn
      have hlt : n < 2 ^ 32 := by
        have h0 := (byteAt s off).toNat_lt
        have h1 := (byteAt s (off + 1)).toNat_lt
        have h2 := (byteAt s (off + 2)).toNat_lt
        have h3 := (byteAt s (off + 3)).toNat_lt
        omega
      refine ⟨hlt, ?_⟩
      rw [(be32_eq_iff hlt).2 hn.symm]
      exact hseg
    · rintro ⟨hlt, h32⟩
      exact ((be32_eq_iff hlt).1 (h32.eq_of_length hseg rfl)).symm

theorem readU16_eq_ok {s : Str} {off n : Nat} :
    readU16 s off = .ok n ↔ n < 2 ^ 16 ∧ SegAt s off (be16 n) := by
  unfold readU16
  split
  · rename_i h
    refine iff_of_false nofun ?_
    rintro ⟨_, hseg⟩
    have := hseg.le
    rw [length_be16] at this
    omega
  · rename_i h
    have hseg : SegAt s off [byteAt s off, byteAt s (off + 1)] := by
      refine segAt_iff_byteAt.2 ⟨by simp; omega, fun i hi => ?_⟩
      simp only [List.length_cons, List.length_nil] at hi
      interval_cases i <;> rfl
    rw [get_nat (by omega), get_nat (by omega)]
    simp only [Outcome.ok_bind, Outcome.pure_eq, Outcome.ok.injEq, or_bytes16]
    constructor
    · intro hn
      have hlt : n < 2 ^ 16 := by
        have h0 := (byteAt s off).toNat_lt
        have h1 := (byteAt s (off + 1)).toNat_lt
        omega
      refine ⟨hlt, ?_⟩
      rw [(be16_eq_iff hlt).2 hn.symm]
      exact hseg
    · rintro ⟨hlt, h16⟩
      exact ((be16_eq_iff hlt).1 (h16.eq_of_length hseg rfl)).symm

theorem readU32_returns (s : Str) (off : Nat) : (readU32 s off).Returns := by
  unfold readU32
  split
  · simp
  · rw [get_nat (by omega), get_nat (by omega), get_nat (by omega), get_nat (by omega)]
    simp

theorem readU16_returns (s : Str) (off : Nat) : (readU16 s off).Returns := by
  unfold readU16
  split
  · simp
  · rw [get_nat (by omega), get_nat (by omega)]
    simp

end Bundle
end MirageLambda
