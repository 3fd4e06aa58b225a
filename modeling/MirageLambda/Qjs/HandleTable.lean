import MirageLambda.Lib.SlotTable
import MirageLambda.Lib.Outcome
import Mathlib.Data.Fin.Basic

/-!
# The engine handle table (qjs/c/qjs_stubs.c)

A C `int` is a `BitVec 32`; a handle is `(generation << 16) | index`, taken apart again with a mask
and an arithmetic shift. The table is generic in what a runtime is. `ρ` stands for the fields of
`mlqjs_runtime` other than `gen`, which `Cell` keeps beside it.

* `tableAlloc`, `tableGet` — `table_alloc`, `table_get` (133, 147)
* `mlqjsCreate`, `mlqjsDestroy` — `mlqjs_create`, `mlqjs_destroy` (180, 236), as far as they touch the
  table; when a destroy ends the process is said in `Qjs.Stubs`

The table refines the abstract `SlotTable` (`WF`, `abs`), with one difference: a handle of
generation `0x8000` is negative, its shift is not the generation, and nothing resolves it. Its slot can
therefore never be freed, which is also why no generation is ever reused.
-/

namespace MirageLambda.Qjs
open OCaml

/-- C `int`. -/
abbrev CInt := BitVec 32

/-- `Int_val`: the low 32 bits of the OCaml integer. -/
def intVal (v : Int) : CInt := BitVec.ofInt 32 v

/-- `Val_int`. -/
def valInt (h : CInt) : Int := h.toInt

theorem intVal_valInt (h : CInt) : intVal (valInt h) = h := BitVec.ofInt_toInt

/-- `MLQJS_TABLE_CAP`. -/
abbrev tableCap : Nat := 64

/-- A runtime in the table, with the `gen` it was given. -/
structure Cell (ρ : Type) where
  gen : CInt
  runtime : ρ

/-- `g_table` and `g_generation`. -/
@[ext] structure Table (ρ : Type) where
  table : Fin tableCap → Option (Cell ρ)
  generation : Fin tableCap → CInt

variable {ρ : Type}

/-- Static storage: all zero. -/
def Table.empty : Table ρ := ⟨fun _ => none, fun _ => 0⟩

/-- The slot `table_alloc` takes: the first free one. -/
def Table.firstFree (t : Table ρ) : Option (Fin tableCap) :=
  (List.finRange tableCap).find? fun i => (t.table i).isNone

/-- The new generation of a slot: 16 bits, 0 is skipped (qjs_stubs.c:138). -/
def nextGen (g : CInt) : CInt :=
  let g := (g + 1) &&& 0xffff
  if g = 0 then 1 else g

/-- `(gen << MLQJS_GEN_SHIFT) | i`. -/
def pack (g : CInt) (i : Fin tableCap) : CInt := (g <<< 16) ||| BitVec.ofNat 32 i

/-- `table_alloc` (qjs_stubs.c:133); 0 when the table is full. -/
def tableAlloc (t : Table ρ) (q : ρ) : CInt × Table ρ :=
  match t.firstFree with
  | none => (0, t)
  | some i =>
    let g := nextGen (t.generation i)
    (pack g i,
      { table := Function.update t.table i (some ⟨g, q⟩)
        generation := Function.update t.generation i g })

/-- `h & MLQJS_INDEX_MASK`. -/
def indexOf (h : CInt) : CInt := h &&& 0xffff

/-- `h >> MLQJS_GEN_SHIFT`, an arithmetic shift. -/
def genOf (h : CInt) : CInt := h.sshiftRight 16

/-- `table_get` (qjs_stubs.c:147): the slot and the runtime. -/
def tableGet (t : Table ρ) (v : Int) : Option (Fin tableCap × ρ) :=
  let h := intVal v
  let index := indexOf h
  let gen := genOf h
  if hi : 0 ≤ index.toInt ∧ index.toInt < tableCap then
    let i : Fin tableCap := ⟨index.toInt.toNat, by omega⟩
    match t.table i with
    | none => none
    | some c => if c.gen ≠ gen then none else some (i, c.runtime)
  else none

/-- How the allocations of `mlqjs_create` can fail before the table is touched. -/
inductive AllocFailure where
  | calloc | newRuntime | newContext
deriving DecidableEq, Repr

def AllocFailure.message : AllocFailure → Str
  | .calloc => str "mlqjs_create: out of memory"
  | .newRuntime => str "mlqjs_create: JS_NewRuntime"
  | .newContext => str "mlqjs_create: JS_NewContextRaw"

/-- `mlqjs_create` (qjs_stubs.c:180): the handle, or `Failure`. -/
def mlqjsCreate {ε : Type} (t : Table ρ) (alloc : Except AllocFailure ρ) : Outcome ε Int × Table ρ :=
  match alloc with
  | .error f => (.raised (.failure f.message), t)
  | .ok q =>
    let (handle, t') := tableAlloc t q
    if handle = 0 then (.raised (.failure (str "mlqjs_create: handle table full")), t)
    else (.ok (valInt handle), t')

/-- `mlqjs_destroy` (qjs_stubs.c:236). -/
def mlqjsDestroy (t : Table ρ) (v : Int) : Table ρ :=
  match tableGet t v with
  | some (i, _) => { t with table := Function.update t.table i none }
  | none => t

/-! ## Packing and unpacking -/

theorem toNat_pack {g : CInt} (hg : g.toNat < 2 ^ 16) (i : Fin tableCap) :
    (pack g i).toNat = g.toNat * 2 ^ 16 + i := by
  have hi : i.val < 64 := i.2
  unfold pack
  rw [BitVec.toNat_or, BitVec.toNat_shiftLeft, BitVec.toNat_ofNat, Nat.mod_eq_of_lt (by omega : i.val < 2 ^ 32),
    Nat.mod_eq_of_lt (by rw [Nat.shiftLeft_eq]; omega), ← Nat.shiftLeft_add_eq_or_of_lt (by omega),
    Nat.shiftLeft_eq]

theorem toNat_indexOf (h : CInt) : (indexOf h).toNat = h.toNat % 2 ^ 16 := by
  unfold indexOf
  rw [BitVec.toNat_and]
  exact Nat.and_two_pow_sub_one_eq_mod h.toNat 16

theorem toInt_indexOf (h : CInt) : (indexOf h).toInt = h.toNat % 2 ^ 16 := by
  rw [BitVec.toInt_eq_toNat_of_lt (by rw [toNat_indexOf]; omega), toNat_indexOf]
  push_cast
  rfl

theorem toInt_genOf (h : CInt) : (genOf h).toInt = h.toInt / 2 ^ 16 := by
  unfold genOf
  rw [BitVec.toInt_sshiftRight, Int.shiftRight_eq_div_pow]
  rfl

/-- The slot and generation an OCaml integer names, if it names any: `index` within the table, and
a generation that is not negative after the shift. -/
def keyOf (v : Int) : Option (Fin tableCap × Nat) :=
  if hi : (intVal v).toNat % 2 ^ 16 < tableCap then
    if 0 ≤ (intVal v).toInt then some (⟨_, hi⟩, ((intVal v).toInt / 2 ^ 16).toNat) else none
  else none

/-- The key of a handle: its generation survives the round trip when it has 15 bits. -/
theorem keyOf_pack {g : CInt} (hg : g.toNat < 0x8000) (i : Fin tableCap) :
    keyOf (valInt (pack g i)) = some (i, g.toNat) := by
  have hi : i.val < 64 := i.2
  have hnat := toNat_pack (g := g) (by omega) i
  have hint : (pack g i).toInt = g.toNat * 2 ^ 16 + i := by
    rw [BitVec.toInt_eq_toNat_of_lt (by omega), hnat]
    push_cast
    rfl
  unfold keyOf
  rw [intVal_valInt]
  have hmod : (pack g i).toNat % 2 ^ 16 = i := by omega
  rw [dif_pos (by rw [hmod]; exact i.2), if_pos (by omega)]
  simp only [Option.some.injEq, Prod.mk.injEq]
  refine ⟨Fin.ext hmod, ?_⟩
  omega

/-- A handle of generation `0x8000` is negative and names nothing. -/
theorem keyOf_pack_neg {g : CInt} (hg : g.toNat = 0x8000) (i : Fin tableCap) :
    keyOf (valInt (pack g i)) = none := by
  have hi : i.val < 64 := i.2
  have hnat := toNat_pack (g := g) (by omega) i
  have hneg : (pack g i).toInt < 0 := by
    rw [BitVec.toInt_eq_toNat_cond]
    split <;> omega
  unfold keyOf
  rw [intVal_valInt]
  split
  · rw [if_neg (by omega)]
  · rfl

theorem keyOf_gen_lt {v : Int} {k : Fin tableCap × Nat} (h : keyOf v = some k) : k.2 < 0x8000 := by
  unfold keyOf at h
  split at h
  · split at h
    · cases h
      have := (intVal v).toInt_lt
      omega
    · cases h
  · cases h

theorem pack_inj {g g' : CInt} {i i' : Fin tableCap} (hg : g.toNat < 2 ^ 16) (hg' : g'.toNat < 2 ^ 16)
    (h : pack g i = pack g' i') : g = g' ∧ i = i' := by
  have hi : i.val < 64 := i.2
  have hi' : i'.val < 64 := i'.2
  have h1 := toNat_pack hg i
  have h2 := toNat_pack hg' i'
  rw [h] at h1
  exact ⟨BitVec.eq_of_toNat_eq (by omega), Fin.ext (by omega)⟩

theorem pack_ne_zero {g : CInt} (hg : g.toNat < 2 ^ 16) (hpos : 0 < g.toNat) (i : Fin tableCap) :
    pack g i ≠ 0 := by
  intro h
  have h1 := toNat_pack hg i
  rw [h, show (0 : CInt).toNat = 0 from rfl] at h1
  omega

/-! ## The invariant -/

/-- Generations have not passed `0x8000`, an occupant carries its slot's generation, and a slot that has
reached `0x8000` is occupied. -/
structure Table.WF (t : Table ρ) : Prop where
  gen_le : ∀ i, (t.generation i).toNat ≤ 0x8000
  cell_gen : ∀ i c, t.table i = some c → c.gen = t.generation i
  stuck : ∀ i, (t.generation i).toNat = 0x8000 → t.table i ≠ none

/-- The table as an abstract slot table. -/
def Table.abs (t : Table ρ) : SlotTable (Fin tableCap) ρ :=
  { cell := fun i => (t.table i).map Cell.runtime, gen := fun i => (t.generation i).toNat }

theorem wf_empty : (Table.empty : Table ρ).WF :=
  ⟨fun _ => by simp [Table.empty], fun _ _ h => by simp [Table.empty] at h, fun _ h => by simp [Table.empty] at h⟩

theorem tableGet_of_lt (t : Table ρ) {v : Int} (hlt : (intVal v).toNat % 2 ^ 16 < tableCap) :
    tableGet t v = match t.table ⟨_, hlt⟩ with
      | none => none
      | some c => if c.gen ≠ genOf (intVal v) then none else some (⟨_, hlt⟩, c.runtime) := by
  have hbound : 0 ≤ (indexOf (intVal v)).toInt ∧ (indexOf (intVal v)).toInt < tableCap := by
    rw [toInt_indexOf]
    omega
  have hidx : (⟨(indexOf (intVal v)).toInt.toNat, by omega⟩ : Fin tableCap) =
      ⟨(intVal v).toNat % 2 ^ 16, hlt⟩ := by
    apply Fin.ext
    show (indexOf (intVal v)).toInt.toNat = (intVal v).toNat % 2 ^ 16
    rw [toInt_indexOf]
    omega
  unfold tableGet
  simp only [dif_pos hbound, hidx]

theorem tableGet_of_not_lt (t : Table ρ) {v : Int} (hlt : ¬ (intVal v).toNat % 2 ^ 16 < tableCap) :
    tableGet t v = none := by
  unfold tableGet
  rw [dif_neg]
  rw [toInt_indexOf]
  omega

/-- The generations that occur are those the shift gives back for a handle that is not negative. -/
theorem eq_genOf_iff {g h : CInt} (hg : g.toNat ≤ 0x8000) :
    g = genOf h ↔ 0 ≤ h.toInt ∧ g.toNat = (h.toInt / 2 ^ 16).toNat := by
  have hgi : g.toInt = g.toNat := BitVec.toInt_eq_toNat_of_lt (by omega)
  rw [← BitVec.toInt_inj, hgi, toInt_genOf]
  omega

/-- **`table_get` is the lookup of the key an integer names.** -/
theorem tableGet_eq_some {t : Table ρ} (hwf : t.WF) {v : Int} {i : Fin tableCap} {q : ρ} :
    tableGet t v = some (i, q) ↔ ∃ g, keyOf v = some (i, g) ∧ t.abs.get (i, g) = some q := by
  by_cases hlt : (intVal v).toNat % 2 ^ 16 < tableCap
  · rw [tableGet_of_lt t hlt]
    unfold keyOf
    rw [dif_pos hlt]
    cases hc : t.table ⟨_, hlt⟩ with
    | none =>
      refine iff_of_false (by simp) ?_
      rintro ⟨g, hk, hget⟩
      split at hk
      · obtain ⟨rfl, rfl⟩ := hk
        simp only [SlotTable.get, Table.abs, hc, Option.map_none, ite_self, reduceCtorEq] at hget
      · cases hk
    | some c =>
      have hgen := hwf.cell_gen _ _ hc
      have hiff := eq_genOf_iff (h := intVal v) (hwf.gen_le ⟨_, hlt⟩)
      rw [← hgen] at hiff
      constructor
      · intro h
        have heq : c.gen = genOf (intVal v) := by
          by_contra hne
          simp [hne] at h
        obtain ⟨hpos, hnat⟩ := hiff.1 heq
        simp only [heq, ne_eq, not_true, if_false, Option.some.injEq, Prod.mk.injEq] at h
        obtain ⟨rfl, rfl⟩ := h
        refine ⟨_, if_pos hpos, ?_⟩
        simp only [SlotTable.get, Table.abs, hc, ← hgen, hnat, if_true, Option.map_some]
      · rintro ⟨g, hk, hget⟩
        split at hk
        · rename_i hpos
          obtain ⟨rfl, rfl⟩ := hk
          simp only [SlotTable.get, Table.abs, hc, Option.map_some, ← hgen] at hget
          split at hget
          · rename_i hnat
            obtain rfl := Option.some.inj hget
            simp [hiff.2 ⟨hpos, hnat⟩]
          · cases hget
        · cases hk
  · rw [tableGet_of_not_lt t hlt]
    refine iff_of_false (by simp) ?_
    rintro ⟨g, hk, _⟩
    unfold keyOf at hk
    rw [dif_neg hlt] at hk
    cases hk

/-! ## `create` and `destroy` on the abstract table -/

theorem firstFree_eq_some {t : Table ρ} {i : Fin tableCap} (h : t.firstFree = some i) : t.table i = none := by
  have := List.find?_some h
  simpa using this

theorem Table.WF.gen_lt {t : Table ρ} (hwf : t.WF) {i : Fin tableCap} (hi : t.table i = none) :
    (t.generation i).toNat < 0x8000 := by
  have hle := hwf.gen_le i
  have hne : (t.generation i).toNat ≠ 0x8000 := fun h => hwf.stuck i h hi
  omega

theorem toNat_nextGen {g : CInt} (hg : g.toNat < 0x8000) : (nextGen g).toNat = g.toNat + 1 := by
  have h1 : (g + 1).toNat = g.toNat + 1 := by
    rw [BitVec.toNat_add, show (1 : CInt).toNat = 1 from rfl, Nat.mod_eq_of_lt (by omega)]
  have h2 : ((g + 1) &&& 0xffff).toNat = g.toNat + 1 := by
    have := toNat_indexOf (g + 1)
    rw [h1, Nat.mod_eq_of_lt (by omega)] at this
    exact this
  unfold nextGen
  simp only []
  rw [if_neg, h2]
  intro h
  rw [h] at h2
  simp at h2

/-- The table after a successful `create` in slot `i`. -/
def Table.install (t : Table ρ) (i : Fin tableCap) (q : ρ) : Table ρ :=
  { table := Function.update t.table i (some ⟨nextGen (t.generation i), q⟩)
    generation := Function.update t.generation i (nextGen (t.generation i)) }

/-- The handle that goes with it. -/
def Table.handleAt (t : Table ρ) (i : Fin tableCap) : Int := valInt (pack (nextGen (t.generation i)) i)

theorem mlqjsCreate_of_free {ε : Type} {t : Table ρ} (hwf : t.WF) {i : Fin tableCap}
    (hi : t.firstFree = some i) (q : ρ) :
    mlqjsCreate (ε := ε) t (.ok q) = (.ok (t.handleAt i), t.install i q) := by
  have hlt := hwf.gen_lt (firstFree_eq_some hi)
  have hg := toNat_nextGen hlt
  have hne := pack_ne_zero (g := nextGen (t.generation i)) (by omega) (by omega) i
  unfold mlqjsCreate tableAlloc
  simp only [hi, if_neg hne]
  rfl

theorem mlqjsCreate_of_full {ε : Type} {t : Table ρ} (hi : t.firstFree = none) (q : ρ) :
    mlqjsCreate (ε := ε) t (.ok q) =
      (.raised (.failure (str "mlqjs_create: handle table full")), t) := by
  unfold mlqjsCreate tableAlloc
  simp only [hi, if_true]

theorem Table.WF.install {t : Table ρ} (hwf : t.WF) {i : Fin tableCap} (hi : t.table i = none) (q : ρ) :
    (t.install i q).WF := by
  have hg := toNat_nextGen (hwf.gen_lt hi)
  have hlt := hwf.gen_lt hi
  refine ⟨fun j => ?_, fun j c hc => ?_, fun j hj => ?_⟩
  · by_cases hji : j = i
    · subst hji
      simp only [Table.install, Function.update_self]
      omega
    · simpa [Table.install, hji] using hwf.gen_le j
  · by_cases hji : j = i
    · subst hji
      simp only [Table.install, Function.update_self, Option.some.injEq] at hc ⊢
      rw [← hc]
    · simp only [Table.install, Function.update_of_ne hji] at hc ⊢
      exact hwf.cell_gen j c hc
  · by_cases hji : j = i
    · subst hji
      simp [Table.install]
    · simp only [Table.install, Function.update_of_ne hji] at hj ⊢
      exact hwf.stuck j hj

theorem abs_install {t : Table ρ} (hwf : t.WF) {i : Fin tableCap} (hi : t.table i = none) (q : ρ) :
    (t.install i q).abs = t.abs.put i q := by
  have hg := toNat_nextGen (hwf.gen_lt hi)
  refine SlotTable.ext (funext fun j => ?_) (funext fun j => ?_)
  · by_cases hji : j = i
    · subst hji
      simp [Table.abs, Table.install, SlotTable.put]
    · simp [Table.abs, Table.install, SlotTable.put, hji]
  · by_cases hji : j = i
    · subst hji
      simp [Table.abs, Table.install, SlotTable.put, hg]
    · simp [Table.abs, Table.install, SlotTable.put, hji]

/-- Freeing a slot that `table_get` found: its generation is below `0x8000`. -/
theorem Table.WF.destroy {t : Table ρ} (hwf : t.WF) (v : Int) : (mlqjsDestroy t v).WF := by
  unfold mlqjsDestroy
  split
  · rename_i i q hget
    obtain ⟨g, hk, hg⟩ := (tableGet_eq_some hwf).1 hget
    have hlt := keyOf_gen_lt hk
    have hgen : (t.generation i).toNat = g := by
      by_contra hne
      simp [SlotTable.get, Table.abs, hne] at hg
    refine ⟨hwf.gen_le, fun j c hc => ?_, fun j hj => ?_⟩
    · by_cases hji : j = i
      · subst hji
        simp at hc
      · simp only [Function.update_of_ne hji] at hc
        exact hwf.cell_gen j c hc
    · have hji : j ≠ i := by
        rintro rfl
        simp only at hj hlt
        omega
      simp only [Function.update_of_ne hji]
      exact hwf.stuck j hj
  · exact hwf

theorem abs_destroy {t : Table ρ} (v : Int) :
    (mlqjsDestroy t v).abs = match tableGet t v with
      | some (i, _) => t.abs.free i
      | none => t.abs := by
  unfold mlqjsDestroy
  split
  · rename_i i q _
    refine SlotTable.ext (funext fun j => ?_) rfl
    by_cases hji : j = i
    · subst hji
      simp [Table.abs, SlotTable.free]
    · simp [Table.abs, SlotTable.free, hji]
  · rfl

/-! ## Runs -/

/-- The two calls, with what they are given. -/
inductive Event (ρ : Type) where
  | create (alloc : Except AllocFailure ρ)
  | destroy (v : Int)

def step (t : Table ρ) : Event ρ → Table ρ
  | .create alloc => (mlqjsCreate (ε := Empty) t alloc).2
  | .destroy v => mlqjsDestroy t v

/-- The handle an event returns: only a successful `create` returns one. -/
def handleOf (t : Table ρ) : Event ρ → Option Int
  | .create alloc => match (mlqjsCreate (ε := Empty) t alloc).1 with
    | .ok h => some h
    | _ => none
  | .destroy _ => none

/-- From an empty table. -/
def run (evs : List (Event ρ)) : Table ρ := evs.foldl step .empty

/-- The handles a run has returned, the latest first. -/
def handles (evs : List (Event ρ)) : List Int :=
  (evs.foldl (fun (st : Table ρ × List Int) e => (step st.1 e, (handleOf st.1 e).toList ++ st.2)) (.empty, [])).2

theorem run_append (pre post : List (Event ρ)) : run (pre ++ post) = post.foldl step (run pre) := by
  simp [run, List.foldl_append]

theorem run_concat (evs : List (Event ρ)) (e : Event ρ) : run (evs ++ [e]) = step (run evs) e := by
  simp [run_append]

theorem handles_concat (evs : List (Event ρ)) (e : Event ρ) :
    handles (evs ++ [e]) = (handleOf (run evs) e).toList ++ handles evs := by
  have hfst : ∀ evs : List (Event ρ), (evs.foldl (fun (st : Table ρ × List Int) e =>
      (step st.1 e, (handleOf st.1 e).toList ++ st.2)) (.empty, [])).1 = run evs := by
    intro evs
    induction evs using List.reverseRecOn with
    | nil => rfl
    | append_singleton evs e ih => rw [List.foldl_append, List.foldl_cons, List.foldl_nil, ih, run_concat]
  rw [handles, List.foldl_append, List.foldl_cons, List.foldl_nil, hfst]
  rfl

/-- What an event can do to a well-formed table, and what handle goes with it. -/
theorem step_cases {t : Table ρ} (hwf : t.WF) (e : Event ρ) :
    (handleOf t e = none ∧ step t e = t) ∨
    (∃ i q, e = .create (.ok q) ∧ t.firstFree = some i ∧ handleOf t e = some (t.handleAt i) ∧
      step t e = t.install i q) ∨
    (∃ v i q, e = .destroy v ∧ tableGet t v = some (i, q) ∧ handleOf t e = none ∧
      step t e = { t with table := Function.update t.table i none }) := by
  cases e with
  | create alloc =>
    cases alloc with
    | error f => exact Or.inl ⟨rfl, rfl⟩
    | ok q =>
      cases hfree : t.firstFree with
      | none =>
        left
        simp only [handleOf, step, mlqjsCreate_of_full hfree, and_self]
      | some i =>
        refine Or.inr (Or.inl ⟨i, q, rfl, rfl, ?_, ?_⟩)
        · simp only [handleOf, mlqjsCreate_of_free hwf hfree]
        · simp only [step, mlqjsCreate_of_free hwf hfree]
  | destroy v =>
    cases hget : tableGet t v with
    | none =>
      left
      simp only [handleOf, step, mlqjsDestroy, hget, and_self]
    | some r =>
      obtain ⟨i, q⟩ := r
      refine Or.inr (Or.inr ⟨v, i, q, rfl, hget, rfl, ?_⟩)
      simp only [step, mlqjsDestroy, hget]

theorem Table.WF.step {t : Table ρ} (hwf : t.WF) (e : Event ρ) : (step t e).WF := by
  rcases step_cases hwf e with ⟨_, h⟩ | ⟨i, q, _, hi, _, h⟩ | ⟨v, i, q, rfl, _, _, _⟩
  · rw [h]; exact hwf
  · rw [h]; exact hwf.install (firstFree_eq_some hi) q
  · exact hwf.destroy v

/-- The code's steps are steps of the abstract table. -/
theorem abs_step {t : Table ρ} (hwf : t.WF) (e : Event ρ) : SlotTable.Step t.abs (step t e).abs := by
  rcases step_cases hwf e with ⟨_, h⟩ | ⟨i, q, _, hi, _, h⟩ | ⟨v, i, q, rfl, hget, _, _⟩
  · rw [h]; exact .idle
  · have hnone := firstFree_eq_some hi
    rw [h, abs_install hwf hnone]
    exact .put i q (by simp [Table.abs, hnone])
  · have habs := abs_destroy (t := t) v
    rw [hget] at habs
    rw [Qjs.step, habs]
    exact .free i

theorem wf_run (evs : List (Event ρ)) : (run evs).WF := by
  induction evs using List.reverseRecOn with
  | nil => exact wf_empty
  | append_singleton evs e ih => rw [run_concat]; exact ih.step e

end MirageLambda.Qjs
