import MirageLambda.Lib.Paths
import MirageLambda.Worker.CapabilityBroker

/-!
# Where random bytes come from (worker/host_crypto.ml:15-25)

`random_bytes` creates a buffer, reads `/dev/urandom` into it once, and returns the buffer. `Bytes.create` does not clear
it, one `Unix.read` delivers at most 65536 bytes and may deliver fewer, and the number of bytes read is thrown away: what
the read did not reach is old heap. The C port of the same operation reads in a loop until it has all bytes
(qjs_port_unix.c:42-65).

`RandomRun` is what may differ between two runs that read the same bytes; `only_entropy_iff` says when it makes no
difference.
-/

namespace MirageLambda
open OCaml

/-- An array of bytes as `dispatch` answers it (capability_broker.ml:53-54). -/
def byteArray (bytes : Str) : Json := .list (bytes.map fun c => .int c.toNat)

/-- `from_string` undoes `to_string` on arrays of bytes. -/
def Yojson.ReadsBackBytes (Y : Yojson) : Prop := ∀ bytes : Str, Y.fromString (Y.toString (byteArray bytes)) = .ok (byteArray bytes)

theorem byteArray_injective : Function.Injective byteArray := by
  have hint : Function.Injective fun c : UInt8 => Json.int c.toNat := by
    intro a b h
    exact UInt8.toNat_inj.1 (Int.ofNat.inj (Json.int.inj h))
  intro a b h
  exact List.map_injective_iff.2 hint (Json.list.inj h)

theorem Yojson.ReadsBackBytes.injective {Y : Yojson} (hY : Y.ReadsBackBytes) {a b : Str}
    (h : Y.toString (byteArray a) = Y.toString (byteArray b)) : a = b := by
  apply byteArray_injective
  have hread := hY a
  rw [h, hY b, Except.ok.injEq] at hread
  exact hread.symm

/-- A request for `n` random bytes. -/
structure AsksFor (Y : Yojson) (payload : Str) (n : Int) : Prop where
  op : (parsePayload payload).1 = str "crypto.randomBytes"
  arg : ∃ fields, Y.fromString (parsePayload payload).2 = .ok (.assoc fields) ∧
    fields.lookup (str "length") = some (.int n)

/-- What the answer to a request may depend on: the implementations with real randomness, the policy, the time, the
memory, and what the one read delivers. -/
structure RandomRun where
  impls : Implementations
  real : impls.crypto.deterministic = false
  policy : Policy
  nowMs : Int64
  memory : Nat → UInt8
  delivered : Str

namespace RandomRun

def sys (r : RandomRun) : System :=
  { nowMs := r.nowMs, memory := some r.memory, openfile := .ok (), read := .ok r.delivered }

def result (r : RandomRun) (Y : Yojson) (payload : Str) : Outcome Str Str :=
  (dispatch Y r.impls r.policy r.sys payload).1

/-- The bytes that are read when `n` are asked for. -/
def got (r : RandomRun) (n : Int) : Str := (r.delivered.take n.toNat).take 65536

end RandomRun

/-- Two runs that read the same bytes answer the same, and an answer has `n` bytes that were all read. -/
structure OnlyEntropy (Y : Yojson) (payload : Str) (n : Int) (got : Str) : Prop where
  same : ∀ r r' : RandomRun, r.got n = got → r'.got n = got → r.result Y payload = r'.result Y payload
  genuine : ∀ r : RandomRun, r.got n = got → ∀ text, r.result Y payload = .ok text →
    ∃ bytes : Str, text = Y.toString (byteArray bytes) ∧ (bytes.length : Int) = n ∧ ∀ c ∈ bytes, c ∈ got

section
variable {Y : Yojson} {payload : Str} {n : Int}

theorem AsksFor.result_eq (h : AsksFor Y payload n) (r : RandomRun) :
    r.result Y payload = (r.impls.crypto.randomBytes r.sys n).1 >>= fun bytes => .ok (Y.toString (byteArray bytes)) := by
  obtain ⟨fields, hread, hlookup⟩ := h.arg
  have hlevel : logLevel (str "crypto.randomBytes") = none := by decide
  have hclock : str "crypto.randomBytes" ≠ str "clock.monotonicMs" := by decide
  have hlen : lengthMember fields = n := by simp only [lengthMember, hlookup]
  have hpayload : parsePayload payload = (str "crypto.randomBytes", (parsePayload payload).2) := by
    rw [← h.op]
  unfold RandomRun.result dispatch
  rw [hpayload]
  simp only [hlevel, if_neg hclock, if_true, onJson, hread, hlen, byteArray]

/-- What the read did not reach is the memory's. -/
theorem randomBytes_eq (r : RandomRun) (hn : 0 ≤ n) (hmax : n ≤ maxStringLength) :
    (r.impls.crypto.randomBytes (ε := Str) r.sys n).1 =
      .ok (r.got n ++ ((List.range n.toNat).map r.memory).drop (r.got n).length) := by
  unfold HostCrypto.randomBytes
  by_cases hzero : n ≤ 0
  · obtain rfl : n = 0 := by omega
    simp [RandomRun.got]
  · rw [if_neg hzero, r.real, if_neg Bool.false_ne_true]
    simp only [bytesCreate, if_neg (show ¬ (n < 0 ∨ n > maxStringLength) by omega), RandomRun.sys, Outcome.ok_bind,
      readInto, List.length_map, List.length_range, RandomRun.got]

theorem AsksFor.result_of_le (h : AsksFor Y payload n) (r : RandomRun) (hn : 0 ≤ n) (hmax : n ≤ maxStringLength) :
    r.result Y payload =
      .ok (Y.toString (byteArray (r.got n ++ ((List.range n.toNat).map r.memory).drop (r.got n).length))) := by
  rw [h.result_eq, randomBytes_eq r hn hmax, Outcome.ok_bind]

/-- There is no buffer of that length. -/
theorem AsksFor.result_of_gt (h : AsksFor Y payload n) (r : RandomRun) (hmax : n > maxStringLength) :
    r.result Y payload = .raised (.invalidArgument (str "Bytes.create")) := by
  have hpos : ¬ n ≤ 0 := by
    have : (0 : Int) < maxStringLength := by decide
    omega
  rw [h.result_eq]
  simp only [HostCrypto.randomBytes, if_neg hpos, r.real, Bool.false_eq_true, if_false, bytesCreate,
    if_pos (show n < 0 ∨ n > maxStringLength by omega), Outcome.raised_bind]

/-- The runs of a fresh worker that read `got` into a buffer full of `old`. -/
def RandomRun.over (got : Str) (old : UInt8) : RandomRun :=
  { impls := { log := .make 65536, clock := .makeReal, crypto := .makeReal, kv := .empty }
    real := rfl, policy := Policy.empty, nowMs := 0, memory := fun _ => old, delivered := got }

/-- **After a short read the answer depends on the memory.** -/
theorem AsksFor.not_onlyEntropy (h : AsksFor Y payload n) (hY : Y.ReadsBackBytes) {got : Str}
    (hread : got.length ≤ 65536) (hshort : (got.length : Int) < n) (hmax : n ≤ maxStringLength) :
    ¬ OnlyEntropy Y payload n got := by
  rintro ⟨hsame, -⟩
  have hgot : ∀ old, (RandomRun.over got old).got n = got := by
    intro old
    show (got.take n.toNat).take 65536 = got
    rw [List.take_of_length_le (show got.length ≤ n.toNat by omega), List.take_of_length_le hread]
  have hresult := hsame (.over got 0) (.over got 1) (hgot 0) (hgot 1)
  rw [h.result_of_le _ (by omega) hmax, h.result_of_le _ (by omega) hmax, hgot, hgot, Outcome.ok.injEq] at hresult
  have hbytes := List.append_cancel_left (hY.injective hresult)
  have hfirst := congrArg List.head? hbytes
  rw [List.head?_drop, List.head?_drop, List.getElem?_map, List.getElem?_map,
    List.getElem?_range (show got.length < n.toNat by omega)] at hfirst
  cases hfirst

/-- **Random bytes come only from the entropy source**, exactly when the one read delivers all of them, or there is no
buffer to read into. -/
theorem only_entropy_iff (hY : Y.ReadsBackBytes) (hn : 0 ≤ n) (h : AsksFor Y payload n) {got : Str}
    (hread : got.length ≤ 65536 ∧ (got.length : Int) ≤ n) :
    OnlyEntropy Y payload n got ↔ (got.length : Int) = n ∨ n > maxStringLength := by
  constructor
  · intro hentropy
    by_contra hcond
    rw [not_or] at hcond
    exact h.not_onlyEntropy hY hread.1 (by omega) (by omega) hentropy
  · intro hcond
    by_cases hmax : n > maxStringLength
    · refine ⟨fun r r' _ _ => ?_, fun r _ text htext => ?_⟩
      · rw [h.result_of_gt r hmax, h.result_of_gt r' hmax]
      · rw [h.result_of_gt r hmax] at htext
        cases htext
    · have hall : (got.length : Int) = n := hcond.resolve_right hmax
      have hresult : ∀ r : RandomRun, r.got n = got → r.result Y payload = .ok (Y.toString (byteArray got)) := by
        intro r hr
        rw [h.result_of_le r hn (by omega), hr, List.drop_eq_nil_of_le (by simp; omega), List.append_nil]
      refine ⟨fun r r' hr hr' => ?_, fun r hr text htext => ⟨got, ?_, hall, fun c hc => hc⟩⟩
      · rw [hresult r hr, hresult r' hr']
      · rw [hresult r hr, Outcome.ok.injEq] at htext
        exact htext.symm

end

/-! ### A reader of arrays -/

namespace ArrayJson

def printItem : Json → Str
  | .int n => intToString n
  | _ => str "null"

/-- Arrays of integers as Yojson writes them. -/
def print : Json → Str
  | .list xs => chr '[' :: ([chr ','].intercalate (xs.map printItem) ++ [chr ']'])
  | _ => str "null"

/-- The items between the brackets. -/
def readItems (inner : Str) : Except Str Json :=
  if inner = [] then .ok (.list [])
  else
    let pieces := splitOnChar (chr ',') inner
    if pieces.all fun p => (parseIntnat 63 p).isSome then
      .ok (.list (pieces.filterMap fun p => (parseIntnat 63 p).map Json.int))
    else .error (str "Invalid token")

/-- The object `{"length":n}` for the two lengths that are asked for below. -/
def askFor (n : Int) : Str := str "\x7b\"length\":" ++ intToString n ++ str "\x7d"

def read (t : Str) : Except Str Json :=
  if t = askFor 2 then .ok (.assoc [(str "length", .int 2)])
  else if t = askFor 70000 then .ok (.assoc [(str "length", .int 70000)])
  else match t with
    | c :: rest => if c = chr '[' then readItems rest.dropLast else .error (str "Invalid token")
    | [] => .error (str "Blank input data")

def yojson : Yojson := { fromString := read, toString := print, prettyToString := print }

theorem comma_not_mem_intToString {n : Int} (hn : 0 ≤ n) : chr ',' ∉ intToString n := by
  obtain ⟨d, ds, hdec, hlt, -⟩ := decimal_eq_map n.natAbs
  rw [intToString, if_neg (not_lt.2 hn), hdec]
  intro hmem
  obtain ⟨x, hx, hcomma⟩ := List.mem_map.1 hmem
  have hdigit : ∀ x : Fin 10, digitChar x.1 ≠ chr ',' := by decide
  exact hdigit ⟨x, hlt x hx⟩ hcomma

theorem parseIntnat_byte (c : UInt8) : parseIntnat 63 (intToString c.toNat) = some (c.toNat : Int) := by
  have hlt := c.toNat_lt
  exact parseIntnat_intToString 63 (by decide) (by decide) (by omega) (by omega)

theorem readItems_intercalate (bytes : Str) :
    readItems ([chr ','].intercalate (bytes.map fun c => intToString c.toNat)) = .ok (byteArray bytes) := by
  cases bytes with
  | nil => rfl
  | cons b bytes =>
    have hpieces : splitOnChar (chr ',') ([chr ','].intercalate ((b :: bytes).map fun c => intToString c.toNat)) =
        (b :: bytes).map fun c => intToString c.toNat := by
      refine splitOnChar_intercalate (fun piece hpiece => ?_) (by simp)
      obtain ⟨c, -, rfl⟩ := List.mem_map.1 hpiece
      exact comma_not_mem_intToString (Int.natCast_nonneg _)
    have hne : [chr ','].intercalate ((b :: bytes).map fun c => intToString c.toNat) ≠ [] := by
      intro hnil
      rw [hnil] at hpieces
      exact intToString_ne_nil _ (List.cons.inj hpieces).1.symm
    have hall : ((b :: bytes).map fun c => intToString c.toNat).all (fun p => (parseIntnat 63 p).isSome) = true := by
      rw [List.all_map, List.all_eq_true]
      intro c _
      simp only [Function.comp_apply, parseIntnat_byte, Option.isSome_some]
    have hitems : ((b :: bytes).map fun c => intToString c.toNat).filterMap (fun p => (parseIntnat 63 p).map Json.int) =
        (b :: bytes).map fun c => Json.int c.toNat := by
      rw [List.filterMap_map, ← List.filterMap_eq_map]
      refine List.filterMap_congr fun c _ => ?_
      simp only [Function.comp_apply, parseIntnat_byte, Option.map_some]
    rw [readItems, if_neg hne]
    simp only [hpieces, hall, if_true, hitems]
    rfl

theorem readsBackBytes : yojson.ReadsBackBytes := by
  intro bytes
  have hitems : (bytes.map fun c => Json.int c.toNat).map printItem = bytes.map fun c => intToString c.toNat :=
    List.map_map
  have hbrace : ∀ n, chr '[' :: ([chr ','].intercalate (bytes.map fun c => intToString c.toNat) ++ [chr ']']) ≠ askFor n := by
    intro n h
    have hhead := congrArg List.head? h
    cases hhead
  show read (print (byteArray bytes)) = .ok (byteArray bytes)
  rw [byteArray, print, hitems, read, if_neg (hbrace 2), if_neg (hbrace 70000)]
  simp only [if_true, List.dropLast_concat]
  exact readItems_intercalate bytes

theorem asksFor_two : AsksFor yojson (str "crypto.randomBytes\n" ++ askFor 2) 2 :=
  ⟨by decide +kernel, _, by rfl, by rfl⟩

theorem asksFor_many : AsksFor yojson (str "crypto.randomBytes\n" ++ askFor 70000) 70000 :=
  ⟨by decide +kernel, _, by rfl, by rfl⟩

end ArrayJson

/-- Two bytes that were read make an answer that shows nothing else. -/
theorem only_entropy_two : OnlyEntropy ArrayJson.yojson (str "crypto.randomBytes\n" ++ ArrayJson.askFor 2) 2 [7, 9] :=
  (only_entropy_iff ArrayJson.readsBackBytes (by decide) ArrayJson.asksFor_two (by decide)).2 (Or.inl (by decide))

/-- A read of one byte of two, and the most that one read delivers for 70000, leave the rest to the memory. -/
theorem short_reads_show_memory :
    ¬ OnlyEntropy ArrayJson.yojson (str "crypto.randomBytes\n" ++ ArrayJson.askFor 2) 2 [7] ∧
      ∀ got : Str, got.length ≤ 65536 →
        ¬ OnlyEntropy ArrayJson.yojson (str "crypto.randomBytes\n" ++ ArrayJson.askFor 70000) 70000 got := by
  refine ⟨?_, fun got hgot => ?_⟩
  · exact ArrayJson.asksFor_two.not_onlyEntropy ArrayJson.readsBackBytes (by decide) (by decide) (by decide)
  · exact ArrayJson.asksFor_many.not_onlyEntropy ArrayJson.readsBackBytes hgot (by omega) (by decide)

end MirageLambda
