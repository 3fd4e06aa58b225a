import Mathlib.Algebra.BigOperators.Group.Finset.Basic
import Mathlib.Algebra.Order.BigOperators.Group.Finset
import Mathlib.Data.Fintype.BigOperators
import MirageLambda.Control.Records

/-!
# The engines of a server over its life

Every engine takes the next generation of its slot, and a generation is never used again. So the generations count the
engines that were ever made, and the table has room for 64 times 32767 of them. As long as the process lives, an engine
that is made either gives a result, which is recorded, or is left in its slot by an exception: the books of a server
balance (`engines_are_accounted_for`), and a server records at most 2097088 results. Once all slots are taken no engine is made
and no result is recorded any more (`full_table_is_final`).
-/

namespace MirageLambda.Qjs
open OCaml

/-! ## Counting -/

theorem sum_of_step {n k : Nat} {f g : Fin n → Nat} (i : Fin n) (hi : g i = f i + k) (hothers : ∀ j, j ≠ i → g j = f j) :
    ∑ j, g j = ∑ j, f j + k := by
  have hrest : ∑ j ∈ Finset.univ.erase i, g j = ∑ j ∈ Finset.univ.erase i, f j :=
    Finset.sum_congr rfl fun j hj => hothers j (Finset.ne_of_mem_erase hj)
  rw [← Finset.add_sum_erase _ f (Finset.mem_univ i), ← Finset.add_sum_erase _ g (Finset.mem_univ i), hi, hrest]
  omega

variable {ρ : Type} {t t' : Table ρ}

/-- The engines that were ever made. -/
def Table.made (t : Table ρ) : Nat := ∑ i, (t.generation i).toNat

/-- The slots that are taken. -/
def Table.taken (t : Table ρ) : Nat := ∑ i, if (t.table i).isSome then 1 else 0

theorem isSome_iff_occupied {i : Fin tableCap} : (t.table i).isSome = true ↔ t.occupied i := by
  rw [Table.occupied, Option.isSome_iff_ne_none]

theorem taken_congr (h : t'.occupied = t.occupied) : t'.taken = t.taken := by
  refine Finset.sum_congr rfl fun j _ => ?_
  have hj : (t'.table j).isSome = true ↔ (t.table j).isSome = true := by
    rw [isSome_iff_occupied, isSome_iff_occupied, h]
  simp only [hj]

theorem made_modify (t : Table ρ) (i : Fin tableCap) (f : ρ → ρ) : (t.modify i f).made = t.made := rfl

theorem made_install (hwf : t.WF) {i : Fin tableCap} (hi : t.table i = none) (q : ρ) :
    (t.install i q).made = t.made + 1 := by
  refine sum_of_step i ?_ fun j hj => ?_
  · simp only [Table.install, Function.update_self]
    exact toNat_nextGen (hwf.gen_lt hi)
  · simp only [Table.install, Function.update_of_ne hj]

theorem taken_install {i : Fin tableCap} (hi : t.table i = none) (q : ρ) : (t.install i q).taken = t.taken + 1 := by
  refine sum_of_step i ?_ fun j hj => ?_
  · simp [Table.install, hi]
  · simp only [Table.install, Function.update_of_ne hj]

theorem made_destroy (t : Table ρ) (v : Int) : (mlqjsDestroy t v).made = t.made := by
  unfold mlqjsDestroy
  split
  · rfl
  · rfl

/-- A slot at its last generation is taken, so what the free and the taken slots have had together is bounded. -/
theorem Table.WF.made_le (hwf : t.WF) : t.made ≤ t.taken + 64 * 0x7fff := by
  have hslot : ∀ i : Fin tableCap, (t.generation i).toNat ≤ (if (t.table i).isSome then 1 else 0) + 0x7fff := by
    intro i
    have hle := hwf.gen_le i
    cases hi : t.table i with
    | none =>
      have hlt := hwf.gen_lt hi
      simp only [Option.isSome_none, Bool.false_eq_true, if_false]
      omega
    | some c =>
      simp only [Option.isSome_some, if_true]
      omega
  refine (Finset.sum_le_sum fun i _ => hslot i).trans ?_
  rw [Finset.sum_add_distrib, Finset.sum_const, Finset.card_univ, Fintype.card_fin]
  exact le_refl _

theorem slot_le_one (c : Option (Cell ρ)) : (if c.isSome then 1 else 0) ≤ 1 := by
  split
  · exact le_refl 1
  · exact Nat.zero_le 1

theorem sum_slots : ∑ _i : Fin tableCap, 1 = 64 := by
  rw [Finset.sum_const, Finset.card_univ, Fintype.card_fin]
  rfl

theorem taken_le (t : Table ρ) : t.taken ≤ 64 := by
  rw [← sum_slots]
  exact Finset.sum_le_sum fun i _ => slot_le_one (t.table i)

theorem taken_lt_of_free {i : Fin tableCap} (hfree : t.firstFree = some i) : t.taken < 64 := by
  have hnone := firstFree_eq_some hfree
  rw [← sum_slots]
  refine Finset.sum_lt_sum (fun j _ => slot_le_one (t.table j)) ⟨i, Finset.mem_univ i, ?_⟩
  rw [hnone]
  exact Nat.zero_lt_one

/-- One table after another, in which engines were made and slots taken. -/
structure Uses (t t' : Table ρ) (made taken : Nat) : Prop where
  room : ∃ i, t.firstFree = some i
  made : t'.made = t.made + made
  taken : t'.taken = t.taken + taken

end MirageLambda.Qjs

namespace MirageLambda
open OCaml Qjs

/-! ## One run -/

/-- `run_one` makes an engine and an exception leaves it in its slot. -/
def StrandsEngine (Y : Yojson) (env : WorkerEnv) (store : ArtifactStore) (fs : FileSystem) (registry : Registry)
    (invocationId : InvocationId) (tenant : TenantId) (functionName : FunctionName) (qualifier : Qualifier)
    (eventJson : Str) (deadlineMs : Int64) (st : State) : Prop :=
  ∃ bundle i, fetchBundle Y store fs registry tenant functionName qualifier = .ok bundle ∧ env.alloc = .ok () ∧
    st.handles.firstFree = some i ∧ (¬ (st.handles.generation i).toNat < 0x7fff ∨
      EngineFails Y env bundle (callSrc bundle.manifest.entrypoint eventJson invocationId deadlineMs))

section
variable {Y : Yojson} {env : WorkerEnv} {store : ArtifactStore} {fs : FileSystem} {registry : Registry}
  {invId : InvocationId} {tenant : TenantId} {fn : FunctionName} {q : Qualifier} {event : Str} {deadline : Int64}
  {st : State}

theorem strandsEngine_of_fetch {bundle : Bundle.Validated}
    (hfetch : fetchBundle Y store fs registry tenant fn q = .ok bundle) :
    StrandsEngine Y env store fs registry invId tenant fn q event deadline st ↔
      ∃ i, env.alloc = .ok () ∧ st.handles.firstFree = some i ∧ (¬ (st.handles.generation i).toNat < 0x7fff ∨
        EngineFails Y env bundle (callSrc bundle.manifest.entrypoint event invId deadline)) := by
  constructor
  · rintro ⟨bundle', i, hfetch', h⟩
    rw [hfetch] at hfetch'
    cases hfetch'
    exact ⟨i, h⟩
  · rintro ⟨i, h⟩
    exact ⟨bundle, i, hfetch, h⟩

theorem not_strandsEngine_of_fetch (hfetch : ∀ bundle, fetchBundle Y store fs registry tenant fn q ≠ .ok bundle) :
    ¬ StrandsEngine Y env store fs registry invId tenant fn q event deadline st := by
  rintro ⟨bundle, i, h, -⟩
  exact hfetch bundle h

/-- An engine that has served has used up a generation and holds its slot. -/
theorem uses_of_serving {t : Table Runtime} (hwf : t.WF) {i : Fin tableCap} (hfree : t.firstFree = some i) {q : Runtime}
    {v : Int} {ms : List (Str × Str)} {ps : List Str} (h : Serving (t.install i q) v i ms ps st) :
    Uses t st.handles 1 1 := by
  have hnone := firstFree_eq_some hfree
  obtain ⟨f, hf⟩ := h.frame
  refine ⟨⟨i, hfree⟩, ?_, ?_⟩
  · rw [hf, made_modify, made_install hwf hnone]
  · rw [taken_congr h.occupied, taken_install hnone]

/-- Destroyed, it has only used up the generation. -/
theorem uses_of_destroy {t : Table Runtime} (hwf : t.WF) {i : Fin tableCap} (hfree : t.firstFree = some i) {q : Runtime}
    {v : Int} {ms : List (Str × Str)} {ps : List Str} (h : Serving (t.install i q) v i ms ps st) :
    Uses t (Qjs.destroy (ε := Empty) st v).2.handles 1 0 := by
  refine ⟨⟨i, hfree⟩, ?_, ?_⟩
  · exact (made_destroy st.handles v).trans (uses_of_serving hwf hfree h).made
  · exact (taken_congr (occupied_destroy_install (firstFree_eq_some hfree) h)).trans (Nat.add_zero _).symm

variable (Y env store fs registry invId tenant fn q event deadline) in
/-- **What a run does to the table.** No engine is made; one is made, gives a result and is destroyed; one is made and
stranded; or the process aborts. -/
theorem runOne_engines (hwf : st.handles.WF) :
    ∃ r st', runOne Y env store fs registry invId tenant fn q event deadline st = (r, st') ∧
      ((¬ StrandsEngine Y env store fs registry invId tenant fn q event deadline st ∧ (∀ a, r ≠ .ok a) ∧
          st'.handles = st.handles) ∨
        (¬ StrandsEngine Y env store fs registry invId tenant fn q event deadline st ∧ (∃ a, r = .ok a) ∧
          Uses st.handles st'.handles 1 0) ∨
        (StrandsEngine Y env store fs registry invId tenant fn q event deadline st ∧ (∃ x, r = .raised x) ∧
          Uses st.handles st'.handles 1 1) ∨
        r = .raised .aborted) := by
  cases hfetch : fetchBundle Y store fs registry tenant fn q with
  | raised x =>
    refine ⟨.raised x, st, ?_, Or.inl ⟨not_strandsEngine_of_fetch (by simp [hfetch]), by simp, rfl⟩⟩
    rw [runOne]
    exact Prog.bind_of_raised (by rw [hfetch, Prog.lift_apply])
  | error e =>
    refine ⟨.error e, st, ?_, Or.inl ⟨not_strandsEngine_of_fetch (by simp [hfetch]), by simp, rfl⟩⟩
    rw [runOne]
    exact Prog.bind_of_error (by rw [hfetch, Prog.lift_apply])
  | ok bundle =>
    rw [strandsEngine_of_fetch hfetch]
    rcases Engine.create_cases hwf env.alloc with ⟨hno, msg, hcreate⟩ | ⟨halloc, i, st₁, hfree, hcreate, hst₁⟩
    · refine ⟨.error (Error.make .workerFailure .functionException msg), { st with nextSerial := st.nextSerial + 1 }, ?_,
        Or.inl ⟨?_, by simp, rfl⟩⟩
      · rw [runOne_of_fetch hfetch]
        refine Prog.bind_of_error ?_
        rw [Prog.mapError, hcreate]
        rfl
      · rintro ⟨i, halloc, hfree, -⟩
        rcases hno with hno | hno
        · exact hno halloc
        · rw [hno] at hfree
          cases hfree
    · have hnone := firstFree_eq_some hfree
      rw [runOne_of_create hfetch hcreate]
      by_cases hgen : (st.handles.generation i).toNat < 0x7fff
      · have hserving := serving_install hwf hnone hgen st.nextSerial hst₁
        obtain ⟨hfails, x, st', ms, ps, hx, h'⟩ | ⟨hworks, st₂, ms, ps, hr, h₂⟩ :=
          driveEngine_cases Y env bundle invId event deadline hserving
        · exact ⟨_, st', runEngine_of_raised hx, Or.inr (Or.inr (Or.inl
            ⟨⟨i, halloc, hfree, Or.inr hfails⟩, ⟨x, rfl⟩, uses_of_serving hwf hfree h'⟩))⟩
        · refine ⟨_, _, runEngine_of_ok hr, ?_⟩
          cases hfrees : st₂.freesRuntime (st.handles.handleAt i) with
          | false => exact Or.inr (Or.inr (Or.inr rfl))
          | true =>
            refine Or.inr (Or.inl ⟨?_, ⟨_, rfl⟩, uses_of_destroy hwf hfree h₂⟩)
            rintro ⟨i', -, hfree', hrest⟩
            rw [hfree] at hfree'
            cases hfree'
            exact hrest.elim (fun h => h hgen) hworks
      · -- the handle is negative: the first call on it raises
        have hstale := tableGet_install_stale hwf hnone hgen (.fresh st.nextSerial)
        refine ⟨.raised (.failure (str "mlqjs_install_host: stale handle")), st₁, ?_,
          Or.inr (Or.inr (Or.inl ⟨⟨i, halloc, hfree, Or.inl hgen⟩, ⟨_, rfl⟩, ⟨i, hfree⟩, ?_, ?_⟩))⟩
        · refine runEngine_of_raised (Prog.bind_of_raised ?_)
          simp only [Engine.installHost, mlqjsInstallHost, hst₁, hstale]
        · rw [hst₁, made_install hwf hnone]
        · rw [hst₁, taken_install hnone]

end

/-! ## One invocation -/

/-- What an invocation costs a server: nothing; an engine, for the next result; or an engine and its slot. -/
inductive Spends (s s' : ServerState) (strands : Prop) : Prop where
  | nothing (hno : ¬ strands) (handles : s'.qjs.handles = s.qjs.handles) (invocations : s'.invocations = s.invocations)
  | finished (hno : ¬ strands) (uses : Uses s.qjs.handles s'.qjs.handles 1 0)
      (result : ∃ (id : InvocationId) (a : InvocationResult), id.toStr = numbered (s.invocations.length + 1) ∧
        s'.invocations = s.invocations.replace id a)
  | stranded (h : strands) (uses : Uses s.qjs.handles s'.qjs.handles 1 1) (invocations : s'.invocations = s.invocations)

/-- The invocation is run, and its engine is stranded. -/
structure Strands (Y : Yojson) (s : ServerState) (i : InvokeRequest) : Prop where
  sync : i.async = false
  taken : Taken s i
  room : s.admission.HasRoom i.tenant
  engine : ∃ (id : InvocationId) (q : Qualifier), id.toStr = numbered (s.invocations.length + 1) ∧ q.toStr = i.qualifier ∧
    StrandsEngine Y i.env.worker s.artifactStore s.fs s.registry id i.tenant i.functionName q i.body
      (i.env.nowMs + 5000) s.qjs

/-- Only the engines and the results matter. -/
theorem Spends.congr {s s₁ s' : ServerState} {p p₁ : Prop} (h : Spends s₁ s' p₁) (hqjs : s₁.qjs = s.qjs)
    (hinv : s₁.invocations = s.invocations) (hp : p ↔ p₁) : Spends s s' p := by
  cases h with
  | nothing hno handles invocations =>
    exact .nothing (mt hp.1 hno) (by rw [handles, hqjs]) (invocations.trans hinv)
  | finished hno uses result =>
    rw [hqjs] at uses
    rw [hinv] at result
    exact .finished (mt hp.1 hno) uses result
  | stranded h uses invocations =>
    rw [hqjs] at uses
    exact .stranded (hp.2 h) uses (invocations.trans hinv)

namespace InvokeRequest

section
variable (Y : Yojson) (env : Env) (id : InvocationId) (tenant : TenantId) (fn : FunctionName) (q body : Str) (d : Int64)
  {s : ServerState}

theorem spends_invokeAccepted (hwf : s.qjs.handles.WF) (hid : id.toStr = numbered (s.invocations.length + 1))
    (hlives : (invokeAccepted Y env id tenant fn q body d s).1 ≠ .raised .aborted) :
    Spends s (invokeAccepted Y env id tenant fn q body d s).2 (∃ q' : Qualifier, q'.toStr = q ∧
      StrandsEngine Y env.worker s.artifactStore s.fs s.registry id tenant fn q' body d s.qjs) := by
  unfold invokeAccepted at hlives ⊢
  cases hq : (Qualifier.ofStringExn q : Outcome Empty Qualifier) with
  | error e => exact e.elim
  | raised x =>
    refine .nothing ?_ rfl rfl
    rintro ⟨q', hval, -⟩
    exact Checked.ne_of_ofStringExn_raised hq q' hval
  | ok q' =>
    have hval : q'.toStr = q := Checked.ofStringExn_eq_ok.1 hq
    have hthis : (∃ q' : Qualifier, q'.toStr = q ∧
        StrandsEngine Y env.worker s.artifactStore s.fs s.registry id tenant fn q' body d s.qjs) ↔
        StrandsEngine Y env.worker s.artifactStore s.fs s.registry id tenant fn q' body d s.qjs := by
      constructor
      · rintro ⟨q'', hval', h⟩
        obtain rfl : q'' = q' := Checked.ext (hval'.trans hval.symm)
        exact h
      · exact fun h => ⟨q', hval, h⟩
    obtain ⟨r, qjs, hrun, hcases⟩ :=
      runOne_engines Y env.worker s.artifactStore s.fs s.registry id tenant fn q' body d hwf
    rw [hq, Prog.lift_ok_bind] at hlives
    rw [Prog.lift_ok_bind, hthis]
    cases r with
    | ok a =>
      have hserver : runOnServer Y env.worker id tenant fn q' body d s = (.ok (.ok a), { s with qjs }) := by
        simp only [runOnServer, hrun]
      rw [Prog.bind_of_ok hserver, Prog.modify_bind]
      obtain ⟨-, hnot, -⟩ | ⟨hno, -, huses⟩ | ⟨-, ⟨x, hx⟩, -⟩ | hx := hcases
      · exact absurd rfl (hnot a)
      · exact .finished hno huses ⟨id, a, hid, rfl⟩
      · cases hx
      · cases hx
    | error e =>
      have hserver : runOnServer Y env.worker id tenant fn q' body d s = (.ok (.error e), { s with qjs }) := by
        simp only [runOnServer, hrun]
      rw [Prog.bind_of_ok hserver, Prog.modify_bind]
      obtain ⟨hno, -, hsame⟩ | ⟨-, ⟨a, ha⟩, -⟩ | ⟨-, ⟨x, hx⟩, -⟩ | hx := hcases
      · exact .nothing hno hsame rfl
      · cases ha
      · cases hx
      · cases hx
    | raised x =>
      have hserver : runOnServer Y env.worker id tenant fn q' body d s = (.raised x, { s with qjs }) := by
        simp only [runOnServer, hrun]
      rw [Prog.bind_of_raised hserver] at hlives ⊢
      obtain ⟨hno, -, hsame⟩ | ⟨-, ⟨a, ha⟩, -⟩ | ⟨hstrands, -, huses⟩ | hx := hcases
      · exact .nothing hno hsame rfl
      · cases ha
      · exact .stranded hstrands huses rfl
      · cases hx
        exact absurd rfl hlives

end

/-- **The price of an invocation** that the process survives. -/
theorem spends_handle (Y : Yojson) (i : InvokeRequest) {s : ServerState} (hwf : s.qjs.handles.WF)
    (hlives : (i.handle Y s).1 ≠ .raised .aborted) : Spends s (i.handle Y s).2 (Strands Y s i) := by
  unfold handle at hlives ⊢
  obtain ⟨x, hraised, heq⟩ | ⟨id, hid, ⟨hno, e, -, heq⟩ | ⟨hadmits, admission, hadmitted, heq⟩⟩ :=
    handleInvoke_cases Y i.env i.tenant i.functionName i.body (s := s) i.qualifier i.async
  · rw [heq]
    refine .nothing (fun h => ?_) rfl rfl
    obtain ⟨id, hval⟩ := h.taken.id
    exact Checked.ne_of_ofStringExn_raised hraised id hval
  · rw [heq]
    exact .nothing (fun h => hno h.taken.admits) rfl rfl
  have hval : id.toStr = numbered (s.invocations.length + 1) := Checked.ofStringExn_eq_ok.1 hid
  have hroom := s.admission.hasRoom_admitRequest i.tenant (i.env.nowMs + 5000) i.env.nowMs i.body.length
  simp only [hadmitted] at hroom
  rw [heq] at hlives ⊢
  cases hasync : i.async with
  | true =>
    have hnot : ¬ Strands Y s i := fun h => Bool.false_ne_true (h.sync.symm.trans hasync)
    simp only [if_true, invokeAsync]
    cases (Qualifier.ofStringExn i.qualifier : Outcome Empty Qualifier) with
    | error e => exact e.elim
    | raised x => exact .nothing hnot rfl rfl
    | ok q => exact .nothing hnot rfl rfl
  | false =>
    simp only [hasync, Bool.false_eq_true, if_false] at hlives ⊢
    obtain ⟨hfull, message, hanswer⟩ | ⟨hhas, accepted, hanswer, -⟩ := invokeSync_cases Y i.env id i.tenant
      i.functionName i.body (i.env.nowMs + 5000) (s := { s with admission }) i.qualifier
    · rw [hanswer]
      exact .nothing (fun h => hfull (hroom.2 h.room)) rfl rfl
    · rw [hanswer] at hlives ⊢
      refine (spends_invokeAccepted Y i.env id i.tenant i.functionName i.qualifier i.body (i.env.nowMs + 5000)
        (s := { s with admission := accepted }) hwf hval hlives).congr rfl rfl ?_
      constructor
      · intro h
        obtain ⟨id', q, hid', hq, hengine⟩ := h.engine
        obtain rfl : id' = id := Checked.ext (hid'.trans hval.symm)
        exact ⟨q, hq, hengine⟩
      · rintro ⟨q, hq, hengine⟩
        exact ⟨hasync, ⟨⟨id, hval⟩, hadmits⟩, hroom.1 hhas, id, q, hval, hq, hengine⟩

end InvokeRequest

/-! ## Runs -/

/-- The request is an invocation that strands an engine. -/
def StrandsOne (Y : Yojson) (s : ServerState) (r : HttpRequest × Env) : Prop :=
  ∃ i, invocationOf s.config r = some i ∧ Strands Y s i

theorem spends_after {Y : Yojson} {s : ServerState} (hwf : s.qjs.handles.WF) {r : HttpRequest × Env}
    (hlives : aborts Y s r = false) : Spends s (after Y s r) (StrandsOne Y s r) := by
  rw [aborts_eq_false, answerTo] at hlives
  obtain ⟨i, hi, heq⟩ | ⟨hno, -, hqjs, -, hinv⟩ := after_cases Y s r
  · rw [heq] at hlives
    rw [after, heq]
    refine (i.spends_handle Y hwf hlives).congr rfl rfl ?_
    constructor
    · rintro ⟨i', hi', h⟩
      rw [hi] at hi'
      cases hi'
      exact h
    · exact fun h => ⟨i, hi, h⟩
  · refine .nothing ?_ (by rw [hqjs]) hinv
    rintro ⟨i, hi, -⟩
    rw [hno] at hi
    cases hi

open Classical in
/-- How many engines a request strands. -/
noncomputable def strandedBy (Y : Yojson) (s : ServerState) (r : HttpRequest × Env) : Nat :=
  if StrandsOne Y s r then 1 else 0

/-- The engines that were made are the results and the slots that are taken. -/
structure Balanced (s : ServerState) : Prop where
  wf : s.WF
  inOrder : InOrder s
  books : s.qjs.handles.made = s.invocations.length + s.qjs.handles.taken

namespace Balanced

variable {Y : Yojson} {s : ServerState}

theorem taken_after (h : Balanced s) {r : HttpRequest × Env} (hlives : aborts Y s r = false) :
    (after Y s r).qjs.handles.taken = s.qjs.handles.taken + strandedBy Y s r := by
  unfold strandedBy
  cases spends_after h.wf.handles hlives with
  | nothing hno handles invocations => rw [handles, if_neg hno, Nat.add_zero]
  | finished hno uses result => rw [uses.taken, if_neg hno]
  | stranded hstrands uses invocations => rw [uses.taken, if_pos hstrands]

protected theorem after (h : Balanced s) {r : HttpRequest × Env} (hlives : aborts Y s r = false) :
    Balanced (after Y s r) := by
  refine ⟨maintains_wf_callback Y r.2 r.1 s h.wf, h.inOrder.after r, ?_⟩
  have hbooks := h.books
  cases spends_after h.wf.handles hlives with
  | nothing hno handles invocations => rw [handles, invocations, hbooks]
  | finished hno uses result =>
    obtain ⟨id, a, hid, hrecord⟩ := result
    rw [uses.made, uses.taken, hrecord, Hashtbl.length_replace (h.inOrder.next_free hid)]
    omega
  | stranded hstrands uses invocations =>
    rw [uses.made, uses.taken, invocations]
    omega

theorem makeState {config : Config} {fs : FileSystem} (hs : makeState config fs = .ok s) : Balanced s := by
  have hwf := wf_makeState hs
  have hfresh := History.fresh_makeState hs
  obtain ⟨store, -, hstate⟩ := Outcome.bind_eq_ok.1 hs
  cases hstate
  refine ⟨hwf, ?_, ?_⟩
  · unfold InOrder
    rw [hfresh.invocations]
    rfl
  · have hmade : (Table.empty : Table Runtime).made = 0 := Finset.sum_const_zero
    have htaken : (Table.empty : Table Runtime).taken = 0 := Finset.sum_const_zero
    show (Table.empty : Table Runtime).made = 0 + (Table.empty : Table Runtime).taken
    rw [hmade, htaken]

/-- Every state that requests can bring a new server to. -/
theorem handleAll {config : Config} {fs : FileSystem} {s₀ : ServerState} (hs₀ : MirageLambda.makeState config fs = .ok s₀)
    (requests : List (HttpRequest × Env)) : Balanced (handleAll Y s₀ requests) :=
  (along_served Y s₀ requests).invariant (fun _ _ hs hlives => hs.after hlives) (makeState hs₀) (List.prefix_refl _)

/-- The results and the slots that are taken share 64 times 32767 generations and one more for each of these slots. -/
theorem length_le (h : Balanced s) : s.invocations.length ≤ 64 * 0x7fff := by
  have hbound := h.wf.handles.made_le
  have hbooks := h.books
  omega

end Balanced

/-- **Every engine is accounted for.** After any run from a new server the engines that were made are the results in
the table and the slots that are taken; the slots are those of the requests that strand an engine, of which there are
never more than 64; and there are never more than 64 times 32767 results. -/
theorem engines_are_accounted_for (Y : Yojson) (config : Config) (fs : FileSystem) (s₀ : ServerState)
    (hs₀ : makeState config fs = .ok s₀) (requests : List (HttpRequest × Env)) :
    let s := handleAll Y s₀ requests
    let stranded := Run.tally (after Y) (strandedBy Y) s₀ (served Y s₀ requests)
    s.qjs.handles.made = s.invocations.length + stranded ∧ s.qjs.handles.taken = stranded ∧ stranded ≤ 64 ∧
      s.invocations.length ≤ 64 * 0x7fff := by
  intro s stranded
  have hstart := Balanced.makeState hs₀
  have hend : Balanced s := Balanced.handleAll hs₀ requests
  have htaken : s.qjs.handles.taken = stranded := by
    have hrun := Run.measure_eq_tally (m := fun s : ServerState => s.qjs.handles.taken)
      (fun _ _ (hs : Balanced _) hlives => hs.after hlives) (fun _ _ hs hlives => hs.taken_after hlives) hstart
      (along_served Y s₀ requests)
    have hzero : s₀.qjs.handles.taken = 0 := by
      have hbooks := hstart.books
      obtain ⟨store, -, hstate⟩ := Outcome.bind_eq_ok.1 hs₀
      cases hstate
      exact Finset.sum_const_zero
    rw [hzero, Nat.zero_add] at hrun
    exact hrun
  refine ⟨?_, htaken, ?_, hend.length_le⟩
  · rw [← htaken]
    exact hend.books
  · rw [← htaken]
    exact taken_le _

/-- **A full table is final.** Once every slot is taken, no run of requests makes an engine, records a result or is
answered 200 for an invocation. Every state that requests can bring a new server to is one to which this applies. -/
theorem full_table_is_final (Y : Yojson) :
    (∀ config fs s₀ before, makeState config fs = .ok s₀ → Balanced (handleAll Y s₀ before)) ∧
    ∀ (s : ServerState) (requests : List (HttpRequest × Env)), Balanced s → s.qjs.handles.taken = 64 →
      let s' := handleAll Y s requests
      s'.qjs.handles = s.qjs.handles ∧ s'.invocations = s.invocations ∧
        ∀ r, (∃ i, invocationOf s.config r = some i) → ¬ Answers 200 (callback Y r.2 r.1 s') := by
  refine ⟨fun config fs s₀ before hs₀ => Balanced.handleAll hs₀ before, ?_⟩
  intro s requests hs hfull s'
  have hkeeps : ∀ (s₁ : ServerState) r, (Balanced s₁ ∧ s₁.qjs.handles = s.qjs.handles ∧ s₁.invocations = s.invocations) →
      aborts Y s₁ r = false →
      Balanced (after Y s₁ r) ∧ (after Y s₁ r).qjs.handles = s.qjs.handles ∧
        (after Y s₁ r).invocations = s.invocations := by
    rintro s₁ r ⟨h, hhandles, hinv⟩ hlives
    have hnone : ¬ ∃ i, s₁.qjs.handles.firstFree = some i := by
      rw [hhandles]
      rintro ⟨i, hi⟩
      exact absurd hfull (taken_lt_of_free hi).ne
    refine ⟨h.after hlives, ?_⟩
    cases spends_after h.wf.handles hlives with
    | nothing hno handles invocations => exact ⟨handles.trans hhandles, invocations.trans hinv⟩
    | finished hno uses result => exact absurd uses.room hnone
    | stranded hstrands uses invocations => exact absurd uses.room hnone
  have hend : Balanced s' ∧ s'.qjs.handles = s.qjs.handles ∧ s'.invocations = s.invocations :=
    (along_served Y s requests).invariant (I := fun s₁ : ServerState =>
      Balanced s₁ ∧ s₁.qjs.handles = s.qjs.handles ∧ s₁.invocations = s.invocations) hkeeps ⟨hs, rfl, rfl⟩
      (List.prefix_refl _)
  refine ⟨hend.2.1, hend.2.2, fun r hi hanswer => ?_⟩
  have hconfig : s'.config = s.config := config_handleAll Y s requests
  obtain ⟨id, a, -, -, hanswered, hadded⟩ | ⟨hno, -⟩ := records_after Y hend.1.inOrder r
  · obtain ⟨response, hok, -⟩ := hanswered
    have hlives : aborts Y s' r = false := by
      rw [aborts_eq_false, answerTo, hok]
      exact fun h => by cases h
    have hsame := (hkeeps s' r hend hlives).2.2
    rw [hsame, hend.2.2] at hadded
    simpa using congrArg List.length hadded
  · rw [hconfig] at hno
    exact hno ⟨hi, hanswer⟩

open MirageLambda.Bundle (sampleYojson)

/-- An asynchronous invocation makes no engine. -/
theorem engines_are_accounted_for_sample :
    (handleAll sampleYojson sampleState [(samplePost, sampleEnv)]).qjs.handles.made = 0 ∧
      Run.tally (after sampleYojson) (strandedBy sampleYojson) sampleState [(samplePost, sampleEnv)] = 0 := by
  obtain ⟨hmade, htaken, -⟩ := engines_are_accounted_for sampleYojson (defaultConfig (str "/srv")) ⟨fun _ => none⟩
    sampleState makeState_sample [(samplePost, sampleEnv)]
  have hempty : (handleAll sampleYojson sampleState [(samplePost, sampleEnv)]).qjs.handles.taken = 0 := by
    decide +kernel
  have hlen : (handleAll sampleYojson sampleState [(samplePost, sampleEnv)]).invocations.length = 0 := by decide +kernel
  rw [hempty, served_singleton (by decide +kernel)] at htaken
  rw [served_singleton (by decide +kernel)] at hmade
  rw [hlen, ← htaken] at hmade
  exact ⟨hmade, htaken.symm⟩

/-- A server with an engine stranded in every slot. -/
def strandedState : ServerState :=
  { sampleState with qjs := { sampleState.qjs with
      handles := { table := fun _ => some ⟨1, .fresh 0⟩, generation := fun _ => 1 } } }

theorem balanced_strandedState : Balanced strandedState := by
  have hsample := wf_makeState makeState_sample
  refine ⟨⟨⟨fun i => ?_, fun i c hc => ?_, fun i _ => ?_⟩, hsample.counts⟩, rfl, ?_⟩
  · show (1 : CInt).toNat ≤ 0x8000
    decide
  · cases hc
    rfl
  · exact Option.some_ne_none _
  · decide +kernel

/-- It keeps its table and answers no invocation with 200. -/
theorem full_table_is_final_sample :
    (handleAll sampleYojson strandedState [(samplePost, sampleEnv)]).qjs.handles.made = 64 ∧
      ¬ Answers 200 (callback sampleYojson sampleEnv samplePost
        (handleAll sampleYojson strandedState [(samplePost, sampleEnv)])) := by
  obtain ⟨hhandles, -, hanswers⟩ := (full_table_is_final sampleYojson).2 strandedState [(samplePost, sampleEnv)]
    balanced_strandedState (by decide +kernel)
  have hinvocation : ∃ i, invocationOf strandedState.config (samplePost, sampleEnv) = some i :=
    Option.isSome_iff_exists.1 (by decide +kernel)
  refine ⟨?_, hanswers (samplePost, sampleEnv) hinvocation⟩
  rw [hhandles]
  decide +kernel

end MirageLambda
