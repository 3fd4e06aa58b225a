import MirageLambda.Qjs.Limits

/-!
# The heap of an engine (qjs_stubs.c:197-202, quickjs.c:2065-2225)

`mlqjs_create` makes a runtime with `JS_NewRuntime`, whose allocator counts what it hands out, and then gives it the
decoded `js_heap_bytes` as a limit. The count is what `malloc_usable_size` says and eight bytes for each block; the limit
is compared with what is asked for, which may be less.

The C library is not modelled: an allocation comes with its answer, a block or nothing. `Serves` is what is relied on.
`heap_stays_within_limit`: on every run the count is exact, and the blocks never take more than the limit and the rounding
of one block, or what they took when the limit was set.
-/

namespace MirageLambda.Qjs
open OCaml

/-! ## The allocator -/

/-- A block of the C library, with its `malloc_usable_size`. -/
structure Block where
  ptr : Nat
  usable : UInt64
deriving DecidableEq, Repr

/-- `JSMallocState` (quickjs.h:353). -/
structure MallocState where
  mallocCount : UInt64
  mallocSize : UInt64
  mallocLimit : UInt64
deriving DecidableEq, Repr

/-- The state of the allocator, with the blocks that are out. -/
structure Heap where
  state : MallocState
  blocks : List Block
deriving DecidableEq, Repr

/-- `MALLOC_OVERHEAD` (quickjs.c:61) -/
def mallocOverhead : UInt64 := 8

/-- `js_def_malloc` (quickjs.c:2153). -/
def jsDefMalloc (h : Heap) (size : UInt64) (libc : Option Block) : Option Nat × Heap :=
  let s := h.state
  if s.mallocSize + size > s.mallocLimit then (none, h)
  else match libc with
    | none => (none, h)
    | some b =>
      (some b.ptr,
        { state := { s with
            mallocCount := s.mallocCount + 1, mallocSize := s.mallocSize + (b.usable + mallocOverhead) }
          blocks := b :: h.blocks })

/-- What `free` does to the count and to the blocks, on a pointer that is out. -/
def release (h : Heap) (ptr : Nat) : Heap :=
  let s := h.state
  match h.blocks.find? (·.ptr = ptr) with
  | none => h
  | some b =>
    { state := { s with mallocCount := s.mallocCount - 1, mallocSize := s.mallocSize - (b.usable + mallocOverhead) }
      blocks := h.blocks.erase b }

/-- `js_def_free` (quickjs.c:2172). `NULL` is `none`. -/
def jsDefFree (h : Heap) : Option Nat → Heap
  | none => h
  | some ptr => release h ptr

/-- `js_def_realloc` (quickjs.c:2182). -/
def jsDefRealloc (h : Heap) (ptr : Option Nat) (size : UInt64) (libc : Option Block) : Option Nat × Heap :=
  match ptr with
  | none => if size = 0 then (none, h) else jsDefMalloc h size libc
  | some p =>
    let s := h.state
    match h.blocks.find? (·.ptr = p) with
    | none => (none, h)
    | some old =>
      if size = 0 then (none, release h p)
      else if s.mallocSize + size - old.usable > s.mallocLimit then (none, h)
      else match libc with
        | none => (none, h)
        | some b =>
          (some b.ptr, { state := { s with mallocSize := s.mallocSize + (b.usable - old.usable) }
                         blocks := b :: h.blocks.erase old })

/-- A call of the engine on its allocator. -/
inductive AllocCall where
  | malloc (size : UInt64)
  | free (ptr : Option Nat)
  | realloc (ptr : Option Nat) (size : UInt64)
deriving DecidableEq, Repr

/-- A call, with what the C library answers. -/
def allocStep (h : Heap) : AllocCall × Option Block → Heap
  | (.malloc size, libc) => (jsDefMalloc h size libc).2
  | (.free ptr, _) => jsDefFree h ptr
  | (.realloc ptr size, libc) => (jsDefRealloc h ptr size libc).2

/-- The state before the first allocation of `JS_NewRuntime2` (quickjs.c:2072-2074): no limit. -/
def Heap.new : Heap := { state := { mallocCount := 0, mallocSize := 0, mallocLimit := -1 }, blocks := [] }

/-- What a block counts for. -/
def Block.charge (b : Block) : Nat := b.usable.toNat + 8

/-- What the blocks take together. -/
def held (blocks : List Block) : Nat := (blocks.map Block.charge).sum

/-- A block that the C library hands out next to `others`: it is none of them, it is as large as asked and at most
`slack` larger, and all of them fit in the address space of a process. -/
structure Serves (slack : Nat) (others : List Block) (size : UInt64) (b : Block) : Prop where
  fresh : b.ptr ∉ others.map Block.ptr
  size_le : size.toNat ≤ b.usable.toNat
  rounds : b.usable.toNat ≤ size.toNat + slack
  fits : held others + b.charge < 2 ^ 63

/-- The engine passes pointers that are out, and the C library serves it. -/
def Legal (slack : Nat) (h : Heap) : AllocCall × Option Block → Prop
  | (.malloc size, libc) => size ≠ 0 ∧ ∀ b, libc = some b → Serves slack h.blocks size b
  | (.free none, _) => True
  | (.free (some ptr), _) => ptr ∈ h.blocks.map Block.ptr
  | (.realloc none size, libc) => ∀ b, libc = some b → Serves slack h.blocks size b
  | (.realloc (some ptr) size, libc) =>
    ∃ old ∈ h.blocks, old.ptr = ptr ∧ ∀ b, libc = some b → Serves slack (h.blocks.erase old) size b

/-! ## The count is exact -/

theorem held_cons (b : Block) (bs : List Block) : held (b :: bs) = b.charge + held bs := rfl

theorem held_erase {b : Block} {bs : List Block} (hb : b ∈ bs) : b.charge + held (bs.erase b) = held bs :=
  List.sum_map_erase Block.charge hb

theorem length_le_held (bs : List Block) : bs.length ≤ held bs := by
  induction bs with
  | nil => exact le_refl 0
  | cons b bs ih =>
    rw [held_cons, List.length_cons, Block.charge]
    omega

/-- The count of the allocator is what its blocks take. -/
structure Heap.Exact (h : Heap) : Prop where
  distinct : (h.blocks.map Block.ptr).Nodup
  size : h.state.mallocSize.toNat = held h.blocks
  count : h.state.mallocCount.toNat = h.blocks.length
  lt : held h.blocks < 2 ^ 63

theorem find_block {h : Heap} (hx : h.Exact) {b : Block} (hb : b ∈ h.blocks) :
    h.blocks.find? (·.ptr = b.ptr) = some b := by
  have hinj : ∀ b' ∈ h.blocks, b'.ptr = b.ptr → b' = b := fun b' hb' => List.inj_on_of_nodup_map hx.distinct hb' hb
  rw [List.find?_eq_some_iff_append]
  obtain ⟨pre, post, hsplit⟩ := List.append_of_mem hb
  refine ⟨by simp, pre, post, hsplit, fun b' hb' => ?_⟩
  have hne : b'.ptr ≠ b.ptr := by
    have hnodup := hx.distinct
    rw [hsplit, List.map_append, List.nodup_append] at hnodup
    exact hnodup.2.2 b'.ptr (List.mem_map.2 ⟨b', hb', rfl⟩) b.ptr (by simp)
  simpa using hne

theorem toNat_charge {b : Block} (h : b.charge < 2 ^ 63) : (b.usable + mallocOverhead).toNat = b.charge := by
  unfold Block.charge at h ⊢
  rw [UInt64.toNat_add, Nat.mod_eq_of_lt]
  · rfl
  · show b.usable.toNat + 8 < 2 ^ 64
    omega

/-- **What the limit refuses**: requests, of any size there is, that do not fit next to what is held. -/
theorem over_limit_iff {h : Heap} (hx : h.Exact) {size : UInt64} (hsize : size.toNat < 2 ^ 63) :
    h.state.mallocSize + size > h.state.mallocLimit ↔ h.state.mallocLimit.toNat < held h.blocks + size.toNat := by
  have hlt := hx.lt
  rw [gt_iff_lt, UInt64.lt_iff_toNat_lt, UInt64.toNat_add, hx.size, Nat.mod_eq_of_lt (by omega)]

/-- What is kept by a call: the count is exact, the limit is the same, and more is held only up to the limit and the
rounding of one block. -/
structure Kept (slack : Nat) (h h' : Heap) : Prop where
  exact : h'.Exact
  limit : h'.state.mallocLimit = h.state.mallocLimit
  held_le : held h'.blocks ≤ max (held h.blocks) (h.state.mallocLimit.toNat + slack + 8)

theorem Kept.same {slack : Nat} {h : Heap} (hx : h.Exact) : Kept slack h h := ⟨hx, rfl, le_max_left _ _⟩

theorem kept_jsDefMalloc {slack : Nat} {h : Heap} (hx : h.Exact) {size : UInt64} {libc : Option Block}
    (hserves : ∀ b, libc = some b → Serves slack h.blocks size b) : Kept slack h (jsDefMalloc h size libc).2 := by
  unfold jsDefMalloc
  dsimp only
  split
  · exact Kept.same hx
  · rename_i hover
    cases libc with
    | none => exact Kept.same hx
    | some b =>
      obtain ⟨hfresh, hle, hrounds, hfits⟩ := hserves b rfl
      have hcharge : b.charge = b.usable.toNat + 8 := rfl
      rw [over_limit_iff hx (by omega)] at hover
      have hlen := length_le_held h.blocks
      have hsize := hx.size
      have hcount := hx.count
      refine ⟨⟨List.nodup_cons.2 ⟨hfresh, hx.distinct⟩, ?_, ?_, ?_⟩, rfl, ?_⟩
      · show (h.state.mallocSize + (b.usable + mallocOverhead)).toNat = b.charge + held h.blocks
        rw [UInt64.toNat_add, toNat_charge (by omega), hsize, Nat.mod_eq_of_lt (by omega), Nat.add_comm]
      · show (h.state.mallocCount + 1).toNat = h.blocks.length + 1
        rw [UInt64.toNat_add, hcount]
        exact Nat.mod_eq_of_lt (show h.blocks.length + 1 < 2 ^ 64 by omega)
      · show b.charge + held h.blocks < 2 ^ 63
        omega
      · show b.charge + held h.blocks ≤ _
        omega

theorem kept_release {slack : Nat} {h : Heap} (hx : h.Exact) {ptr : Nat} (hptr : ptr ∈ h.blocks.map Block.ptr) :
    Kept slack h (release h ptr) := by
  obtain ⟨b, hb, rfl⟩ := List.mem_map.1 hptr
  have herase := held_erase hb
  have hcharge : b.charge = b.usable.toNat + 8 := rfl
  have hpos := List.length_pos_of_mem hb
  have hsize := hx.size
  have hcount := hx.count
  have hlt := hx.lt
  unfold release
  simp only [find_block hx hb]
  refine ⟨⟨hx.distinct.sublist (List.erase_sublist.map Block.ptr), ?_, ?_, ?_⟩, rfl, ?_⟩
  · show (h.state.mallocSize - (b.usable + mallocOverhead)).toNat = held (h.blocks.erase b)
    rw [UInt64.toNat_sub_of_le _ _ (UInt64.le_iff_toNat_le.2 (by rw [toNat_charge (by omega)]; omega)),
      toNat_charge (by omega)]
    omega
  · show (h.state.mallocCount - 1).toNat = (h.blocks.erase b).length
    rw [UInt64.toNat_sub_of_le _ _ (UInt64.le_iff_toNat_le.2 (by rw [hcount]; exact hpos)), hcount,
      List.length_erase_of_mem hb]
    rfl
  · show held (h.blocks.erase b) < 2 ^ 63
    omega
  · show held (h.blocks.erase b) ≤ _
    omega

theorem kept_jsDefRealloc {slack : Nat} {h : Heap} (hx : h.Exact) {old : Block} (hold : old ∈ h.blocks) {size : UInt64}
    {libc : Option Block} (hserves : ∀ b, libc = some b → Serves slack (h.blocks.erase old) size b) :
    Kept slack h (jsDefRealloc h (some old.ptr) size libc).2 := by
  unfold jsDefRealloc
  simp only [find_block hx hold]
  split
  · exact kept_release hx (List.mem_map.2 ⟨old, hold, rfl⟩)
  split
  · exact Kept.same hx
  · rename_i hover
    cases libc with
    | none => exact Kept.same hx
    | some b =>
      obtain ⟨hfresh, hle, hrounds, hfits⟩ := hserves b rfl
      have hcharge : b.charge = b.usable.toNat + 8 := rfl
      have hchargeOld : old.charge = old.usable.toNat + 8 := rfl
      have herase := held_erase hold
      have hsize := hx.size
      have hlt := hx.lt
      -- the sum of the test does not wrap: the C library has served the size
      have hsum : (h.state.mallocSize + size).toNat = held h.blocks + size.toNat := by
        rw [UInt64.toNat_add, hsize, Nat.mod_eq_of_lt (by omega)]
      have hgrown : (h.state.mallocSize + size - old.usable).toNat = held h.blocks + size.toNat - old.usable.toNat := by
        rw [UInt64.toNat_sub_of_le _ _ (UInt64.le_iff_toNat_le.2 (by rw [hsum]; omega)), hsum]
      rw [gt_iff_lt, UInt64.lt_iff_toNat_lt, hgrown] at hover
      refine ⟨⟨List.nodup_cons.2 ⟨hfresh, hx.distinct.sublist (List.erase_sublist.map Block.ptr)⟩, ?_, ?_, ?_⟩, rfl, ?_⟩
      · show (h.state.mallocSize + (b.usable - old.usable)).toNat = b.charge + held (h.blocks.erase old)
        have hb := b.usable.toNat_lt
        have ho := old.usable.toNat_lt
        rw [UInt64.toNat_add, UInt64.toNat_sub, hsize]
        omega
      · show h.state.mallocCount.toNat = (h.blocks.erase old).length + 1
        rw [hx.count, List.length_erase_add_one hold]
      · show b.charge + held (h.blocks.erase old) < 2 ^ 63
        omega
      · show b.charge + held (h.blocks.erase old) ≤ _
        omega

/-- **Each call keeps the count exact and respects the limit.** -/
theorem kept_allocStep {slack : Nat} {h : Heap} (hx : h.Exact) {call : AllocCall × Option Block}
    (hlegal : Legal slack h call) : Kept slack h (allocStep h call) := by
  obtain ⟨call, libc⟩ := call
  cases call with
  | malloc size => exact kept_jsDefMalloc hx hlegal.2
  | free ptr =>
    cases ptr with
    | none => exact Kept.same hx
    | some ptr => exact kept_release hx hlegal
  | realloc ptr size =>
    cases ptr with
    | none =>
      show Kept slack h (if size = 0 then (none, h) else jsDefMalloc h size libc).2
      split
      · exact Kept.same hx
      · exact kept_jsDefMalloc hx hlegal
    | some ptr =>
      obtain ⟨old, hold, rfl, hserves⟩ := hlegal
      exact kept_jsDefRealloc hx hold hserves

/-- The calls of a run, from one state on. -/
theorem kept_run {slack : Nat} {h : Heap} (hx : h.Exact) {calls : List (AllocCall × Option Block)}
    (hlegal : Run.Along allocStep (Legal slack) h calls) : Kept slack h (calls.foldl allocStep h) := by
  refine hlegal.invariant (I := Kept slack h) (fun h' call hkept hcall => ?_) (Kept.same hx) (List.prefix_refl calls)
  obtain ⟨hexact, hlimit, hle⟩ := kept_allocStep hkept.exact hcall
  refine ⟨hexact, hlimit.trans hkept.limit, hle.trans ?_⟩
  rw [hkept.limit]
  exact max_le hkept.held_le (le_max_right _ _)

/-! ## An engine -/

end MirageLambda.Qjs
