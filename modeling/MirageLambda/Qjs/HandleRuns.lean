import MirageLambda.Qjs.HandleTable

/-!
# Handles over whole runs

From an empty table, for any sequence of `mlqjs_create` and `mlqjs_destroy`:

* `stale_handles_rejected` — no handle is returned twice, and one that was passed to `mlqjs_destroy`
  is rejected for ever;
* `handles_resolve_iff` — a handle resolves until it is destroyed exactly when its slot had been used
  fewer than 32767 times before. The 32768th use of a slot gets generation `0x8000`, whose handle is
  negative (`unresolvable_after_cycles`).
-/

namespace MirageLambda.Qjs
open OCaml

variable {ρ : Type}

/-! ## Stale handles -/

/-- `h` was made from a key that the table has handed out. -/
def IssuedAs (t : Table ρ) (h : Int) (i : Fin tableCap) (g : CInt) : Prop :=
  t.abs.Issued (i, g.toNat) ∧ h = valInt (pack g i)

theorem issuedAs_install {t : Table ρ} (hwf : t.WF) {i : Fin tableCap} (hi : t.table i = none) (q : ρ) :
    IssuedAs (t.install i q) (t.handleAt i) i (nextGen (t.generation i)) := by
  refine ⟨?_, rfl⟩
  rw [abs_install hwf hi, toNat_nextGen (hwf.gen_lt hi)]
  exact SlotTable.issued_put _ _ _

/-- Every handle returned so far stands for a key handed out so far. -/
theorem exists_issuedAs (evs : List (Event ρ)) : ∀ h ∈ handles evs, ∃ i g, IssuedAs (run evs) h i g := by
  induction evs using List.reverseRecOn with
  | nil => simp [handles]
  | append_singleton evs e ih =>
    intro h hh
    have hwf := wf_run evs
    rw [handles_concat, List.mem_append] at hh
    rw [run_concat]
    rcases hh with hnew | hold
    · rcases step_cases hwf e with ⟨hnone, _⟩ | ⟨i, q, _, hi, hsome, hstep⟩ | ⟨_, _, _, _, _, hnone, _⟩
      · simp [hnone] at hnew
      · simp only [hsome, Option.toList_some, List.mem_singleton] at hnew
        rw [hnew, hstep]
        exact ⟨i, _, issuedAs_install hwf (firstFree_eq_some hi) q⟩
      · simp [hnone] at hnew
    · obtain ⟨i, g, hiss, hh⟩ := ih h hold
      exact ⟨i, g, hiss.step (abs_step hwf e), hh⟩

/-- Generations stay below 16 bits, so different keys have different handles. -/
theorem IssuedAs.key_eq {t : Table ρ} (hwf : t.WF) {h : Int} {i i' : Fin tableCap} {g g' : CInt}
    (h1 : IssuedAs t h i g) (h2 : IssuedAs t h i' g') : g = g' ∧ i = i' := by
  have hg := h1.1.2.trans (hwf.gen_le i)
  have hg' := h2.1.2.trans (hwf.gen_le i')
  have heq : pack g i = pack g' i' := by
    rw [← intVal_valInt (pack g i), ← intVal_valInt (pack g' i'), ← h1.2, ← h2.2]
  exact pack_inj (by simp only at hg; omega) (by simp only at hg'; omega) heq

theorem nodup_handles (evs : List (Event ρ)) : (handles evs).Nodup := by
  induction evs using List.reverseRecOn with
  | nil => simp [handles]
  | append_singleton evs e ih =>
    have hwf := wf_run evs
    rw [handles_concat]
    rcases step_cases hwf e with ⟨hnone, _⟩ | ⟨i, q, _, hi, hsome, hstep⟩ | ⟨_, _, _, _, _, hnone, _⟩
    · simpa [hnone] using ih
    · rw [hsome, Option.toList_some, List.singleton_append, List.nodup_cons]
      refine ⟨fun hmem => ?_, ih⟩
      -- an older handle of the same value would stand for the key handed out just now
      obtain ⟨j, g, hiss, hh⟩ := exists_issuedAs evs _ hmem
      have hnone := firstFree_eq_some hi
      have hold : IssuedAs ((run evs).install i q) ((run evs).handleAt i) j g := by
        refine ⟨hiss.step ?_, hh⟩
        rw [← hstep]
        exact abs_step hwf e
      obtain ⟨rfl, rfl⟩ := (issuedAs_install hwf hnone q).key_eq (hwf.install hnone q) hold
      have hgen := toNat_nextGen (hwf.gen_lt hnone)
      rw [hgen] at hiss
      exact SlotTable.not_issued_succ _ _ hiss
    · simpa [hnone] using ih

/-- The key of a handle, when its generation fits. -/
theorem IssuedAs.keyOf_eq {t : Table ρ} (hwf : t.WF) {h : Int} {i : Fin tableCap} {g : CInt}
    (hiss : IssuedAs t h i g) : keyOf h = some (i, g.toNat) ∨ keyOf h = none := by
  have hg : g.toNat ≤ 0x8000 := hiss.1.2.trans (hwf.gen_le i)
  rw [hiss.2]
  rcases Nat.lt_or_ge g.toNat 0x8000 with hlt | hge
  · exact Or.inl (keyOf_pack hlt i)
  · exact Or.inr (keyOf_pack_neg (le_antisymm hg hge) i)

theorem tableGet_eq_none_of_dead {t : Table ρ} (hwf : t.WF) {h : Int} {k : Fin tableCap × Nat}
    (hk : keyOf h = some k) (hdead : t.abs.Dead k) : tableGet t h = none := by
  cases hget : tableGet t h with
  | none => rfl
  | some r =>
    obtain ⟨i, q⟩ := r
    obtain ⟨g, hk', hq⟩ := (tableGet_eq_some hwf).1 hget
    rw [hk] at hk'
    obtain rfl := Option.some.inj hk'
    rw [hdead.get_eq_none] at hq
    cases hq

theorem tableGet_eq_none_of_keyOf {t : Table ρ} (hwf : t.WF) {h : Int} (hk : keyOf h = none) :
    tableGet t h = none := by
  cases hget : tableGet t h with
  | none => rfl
  | some r =>
    obtain ⟨g, hk', _⟩ := (tableGet_eq_some hwf).1 hget
    rw [hk] at hk'
    cases hk'

/-- `mlqjs_destroy h` kills the key of `h`, whether it still resolved or not. -/
theorem dead_destroy {t : Table ρ} (hwf : t.WF) {h : Int} {k : Fin tableCap × Nat}
    (hk : keyOf h = some k) (hiss : t.abs.Issued k) : (mlqjsDestroy t h).abs.Dead k := by
  rw [abs_destroy]
  cases hget : tableGet t h with
  | none =>
    refine hiss.dead_of_get_eq_none ?_
    cases hq : t.abs.get k with
    | none => rfl
    | some q =>
      rw [(tableGet_eq_some hwf (i := k.1) (q := q)).2 ⟨k.2, hk, hq⟩] at hget
      cases hget
  | some r =>
    obtain ⟨i, q⟩ := r
    obtain ⟨g, hk', _⟩ := (tableGet_eq_some hwf).1 hget
    rw [hk] at hk'
    obtain rfl := Option.some.inj hk'
    exact SlotTable.dead_free hiss

/-- A key that is dead after some run is dead after every continuation. -/
theorem dead_run {k : Fin tableCap × Nat} (pre post : List (Event ρ)) (h : (run pre).abs.Dead k) :
    (run (pre ++ post)).abs.Dead k := by
  induction post using List.reverseRecOn with
  | nil => simpa using h
  | append_singleton post e ih =>
    rw [← List.append_assoc, run_concat]
    exact ih.step (abs_step (wf_run _) e)

/-- Slot `i` answers to the integer `v`. -/
def Answers (t : Table ρ) (i : Fin tableCap) (v : Int) : Prop := ∃ q, tableGet t v = some (i, q)

/-- **Stale handles are rejected for ever.** No handle is returned twice, two live runtimes never
answer to the same integer, and a returned handle that was passed to `mlqjs_destroy` resolves to nothing
after any further calls. -/
theorem stale_handles_rejected (evs : List (Event ρ)) :
    (handles evs).Nodup ∧ (∀ i j v, Answers (run evs) i v → Answers (run evs) j v → i = j) ∧
      ∀ h ∈ handles evs, ∀ post, tableGet (run (evs ++ .destroy h :: post)) h = none := by
  refine ⟨nodup_handles evs, ?_, ?_⟩
  · rintro i j v ⟨q, hi⟩ ⟨q', hj⟩
    rw [hi] at hj
    cases hj
    rfl
  · intro h hh post
    obtain ⟨i, g, hiss⟩ := exists_issuedAs evs h hh
    rcases hiss.keyOf_eq (wf_run evs) with hk | hk
    · have hdead : (run (evs ++ [.destroy h])).abs.Dead (i, g.toNat) := by
        rw [run_concat]
        exact dead_destroy (wf_run evs) hk hiss.1
      have := dead_run (evs ++ [.destroy h]) post hdead
      rw [List.append_assoc, List.singleton_append] at this
      exact tableGet_eq_none_of_dead (wf_run _) hk this
    · exact tableGet_eq_none_of_keyOf (wf_run _) hk

/-! ## Live handles -/

/-- `h` resolves to `q`. -/
def Resolves (t : Table ρ) (h : Int) (q : ρ) : Prop := ∃ i, tableGet t h = some (i, q)

/-- The event is a `mlqjs_destroy` of the handle: what C sees of the two integers is the same. -/
def Event.destroys (h : Int) : Event ρ → Prop
  | .destroy v => intVal v = intVal h
  | .create _ => False

/-- In the state after `evs`, every handle returned on the way and not destroyed since resolves to the
runtime it was returned for. -/
def HandlesResolve (evs : List (Event ρ)) : Prop :=
  ∀ pre q post h, evs = pre ++ .create (.ok q) :: post →
    handleOf (run pre) (.create (.ok q)) = some h → (∀ e ∈ post, ¬ e.destroys h) → Resolves (run evs) h q

/-- Every `create` of the run takes a slot whose generation is below `0x7fff`. -/
def FreshGenerations (evs : List (Event ρ)) : Prop :=
  ∀ pre q post i, evs = pre ++ .create (.ok q) :: post → (run pre).firstFree = some i →
    ((run pre).generation i).toNat < 0x7fff

/-- An integer that names a key is determined by it, as far as C sees it. -/
theorem keyOf_inj {v w : Int} {k : Fin tableCap × Nat} (hv : keyOf v = some k) (hw : keyOf w = some k) :
    intVal v = intVal w := by
  have key : ∀ {v : Int}, keyOf v = some k → ((intVal v).toInt = k.2 * 2 ^ 16 + k.1) := by
    intro v hk
    unfold keyOf at hk
    split at hk
    · split at hk
      · rename_i hlt hpos
        cases hk
        simp only
        have := BitVec.toInt_eq_toNat_of_lt (x := intVal v) (by
          have := BitVec.toInt_eq_toNat_cond (intVal v)
          split at this <;> omega)
        omega
      · cases hk
    · cases hk
  exact BitVec.eq_of_toInt_eq ((key hv).trans (key hw).symm)

/-- One event keeps a key resolving, unless it destroys the handle. -/
theorem get_step {t : Table ρ} (hwf : t.WF) {e : Event ρ} {h : Int} {k : Fin tableCap × Nat} {q : ρ}
    (hk : keyOf h = some k) (hget : t.abs.get k = some q) (hne : ¬ e.destroys h) :
    (step t e).abs.get k = some q := by
  rcases step_cases hwf e with ⟨_, hstep⟩ | ⟨i, q', _, hi, _, hstep⟩ | ⟨v, i, q', rfl, hv, _, _⟩
  · rw [hstep]; exact hget
  · have hnone := firstFree_eq_some hi
    rw [hstep, abs_install hwf hnone]
    exact SlotTable.get_put_of_some (by simp [Table.abs, hnone]) hget
  · have habs := abs_destroy (t := t) v
    rw [hv] at habs
    rw [step, habs]
    obtain ⟨g, hkv, hgv⟩ := (tableGet_eq_some hwf).1 hv
    by_cases hki : k.1 = i
    · -- the key freed is `k` itself: only one generation of a slot resolves
      subst hki
      have hgen : ∀ {m r}, t.abs.get (k.1, m) = some r → t.abs.gen k.1 = m := by
        intro m r hr
        by_contra hne
        simp [SlotTable.get, hne] at hr
      have hkk : k = (k.1, g) := by
        have h1 : t.abs.gen k.1 = k.2 := hgen hget
        rw [hgen hgv] at h1
        rw [h1]
      rw [← hkk] at hkv
      exact absurd (keyOf_inj hkv hk) hne
    · rw [SlotTable.get_free_of_ne hki]
      exact hget

theorem get_run {h : Int} {k : Fin tableCap × Nat} {q : ρ} (hk : keyOf h = some k) (pre post : List (Event ρ))
    (hget : (run pre).abs.get k = some q) (hpost : ∀ e ∈ post, ¬ e.destroys h) :
    (run (pre ++ post)).abs.get k = some q := by
  induction post using List.reverseRecOn with
  | nil => simpa using hget
  | append_singleton post e ih =>
    rw [← List.append_assoc, run_concat]
    exact get_step (wf_run _) hk (ih fun x hx => hpost x (by simp [hx])) (hpost e (by simp))

/-- The handle of a `create` names its slot exactly when the slot's generation was below `0x7fff`. -/
theorem keyOf_handleAt {t : Table ρ} (hwf : t.WF) {i : Fin tableCap} (hi : t.table i = none) :
    keyOf (t.handleAt i) =
      if (t.generation i).toNat < 0x7fff then some (i, (t.generation i).toNat + 1) else none := by
  have hlt := hwf.gen_lt hi
  have hgen := toNat_nextGen hlt
  unfold Table.handleAt
  split
  · rw [keyOf_pack (by omega), hgen]
  · exact keyOf_pack_neg (by omega) i

theorem handleOf_create {t : Table ρ} (hwf : t.WF) {q : ρ} {h : Int}
    (hh : handleOf t (.create (.ok q)) = some h) :
    ∃ i, t.firstFree = some i ∧ h = t.handleAt i ∧ step t (.create (.ok q)) = t.install i q := by
  rcases step_cases hwf (.create (.ok q)) with ⟨hnone, _⟩ | ⟨i, q', he, hi, hsome, hstep⟩ | ⟨_, _, _, he, _⟩
  · rw [hnone] at hh
    cases hh
  · rw [hsome] at hh
    cases hh
    cases he
    exact ⟨i, hi, rfl, hstep⟩
  · cases he

/-- **When handles resolve.** All along a run every handle resolves to its runtime until it is
destroyed, exactly when every `create` of the run takes a slot of generation below `0x7fff`. -/
theorem handles_resolve_iff (evs : List (Event ρ)) :
    (∀ evs', evs' <+: evs → HandlesResolve evs') ↔ FreshGenerations evs := by
  constructor
  · intro hall pre q post i hevs hi
    have hwf := wf_run pre
    have hhandle : handleOf (run pre) (.create (.ok q)) = some ((run pre).handleAt i) := by
      simp only [handleOf, mlqjsCreate_of_free hwf hi]
    -- look at the state right after this `create`
    have hres := hall (pre ++ [.create (.ok q)]) ⟨post, by simp [hevs]⟩ pre q [] _ rfl hhandle (by simp)
    obtain ⟨j, hj⟩ := hres
    obtain ⟨g, hk, _⟩ := (tableGet_eq_some (wf_run _)).1 hj
    rw [keyOf_handleAt hwf (firstFree_eq_some hi)] at hk
    split at hk
    · assumption
    · cases hk
  · intro hfresh evs' hpre pre q post h hevs hh hpost
    obtain ⟨rest, rfl⟩ := hpre
    have hwf := wf_run pre
    obtain ⟨i, hi, rfl, hstep⟩ := handleOf_create hwf hh
    have hnone := firstFree_eq_some hi
    have hgen := hfresh pre q (post ++ rest) i (by simp [hevs]) hi
    have hk := keyOf_handleAt hwf hnone
    rw [if_pos hgen] at hk
    have hget : (run (pre ++ [.create (.ok q)])).abs.get (i, ((run pre).generation i).toNat + 1) = some q := by
      rw [run_concat, hstep, abs_install hwf hnone]
      exact SlotTable.get_put (run pre).abs i q
    have := get_run hk (pre ++ [.create (.ok q)]) post hget hpost
    rw [List.append_assoc, List.singleton_append, ← hevs] at this
    exact ⟨i, (tableGet_eq_some (wf_run _)).2 ⟨_, hk, this⟩⟩

/-! ### The 32768th engine -/

/-- `n` times: create an engine, destroy it. It is always slot 0, so the `k`-th handle is `k << 16`. -/
def cycles : Nat → List (Event Unit)
  | 0 => []
  | n + 1 => cycles n ++ [.create (.ok ()), .destroy ((n + 1 : Nat) * 2 ^ 16)]

/-- The empty table with slot 0 used `n` times. -/
def usedTable (n : Nat) : Table Unit :=
  { table := fun _ => none, generation := Function.update (fun _ => 0) 0 (BitVec.ofNat 32 n) }

theorem firstFree_usedTable (n : Nat) : (usedTable n).firstFree = some 0 := rfl

theorem toNat_generation_usedTable {n : Nat} (hn : n ≤ 32767) : ((usedTable n).generation 0).toNat = n := by
  have hgen : (usedTable n).generation 0 = BitVec.ofNat 32 n := by simp [usedTable]
  rw [hgen, BitVec.toNat_ofNat, Nat.mod_eq_of_lt (by omega)]

/-- The handle of a turn is the integer its `destroy` is called with. -/
theorem handleAt_usedTable {n : Nat} (hn : n < 32767) : (usedTable n).handleAt 0 = ((n + 1 : Nat) : Int) * 2 ^ 16 := by
  have hnat := toNat_generation_usedTable (n := n) (by omega)
  have hpack := toNat_pack (g := nextGen ((usedTable n).generation 0))
    (by rw [toNat_nextGen (by omega)]; omega) 0
  rw [toNat_nextGen (by omega), hnat] at hpack
  rw [Table.handleAt, valInt, BitVec.toInt_eq_toNat_of_lt (by rw [hpack]; simp; omega), hpack]
  simp

theorem tableGet_usedTable {n : Nat} (hn : n < 32767) (hwf : (usedTable n).WF) :
    tableGet ((usedTable n).install 0 ()) (((n + 1 : Nat) : Int) * 2 ^ 16) = some (0, ()) := by
  have hfree := firstFree_eq_some (firstFree_usedTable n)
  have hnat := toNat_generation_usedTable (n := n) (by omega)
  have hkey := keyOf_handleAt hwf hfree
  rw [hnat, if_pos (by omega), handleAt_usedTable hn] at hkey
  refine (tableGet_eq_some (hwf.install hfree ())).2 ⟨_, hkey, ?_⟩
  have hput := SlotTable.get_put (usedTable n).abs 0 ()
  rw [show (usedTable n).abs.gen 0 = n from hnat] at hput
  rw [abs_install hwf hfree]
  exact hput

theorem run_cycles {n : Nat} (hn : n ≤ 32767) : run (cycles n) = usedTable n := by
  induction n with
  | zero =>
    rw [usedTable, show BitVec.ofNat 32 0 = 0 from rfl, Function.update_eq_self_iff.2 rfl]
    rfl
  | succ n ih =>
    have hwf : (usedTable n).WF := by
      rw [← ih (by omega)]
      exact wf_run _
    have hnext : nextGen ((usedTable n).generation 0) = BitVec.ofNat 32 (n + 1) := by
      have hnat := toNat_generation_usedTable (n := n) (by omega)
      apply BitVec.eq_of_toNat_eq
      rw [toNat_nextGen (by omega), hnat, BitVec.toNat_ofNat, Nat.mod_eq_of_lt (by omega)]
    have hcreate : step (usedTable n) (.create (.ok ())) = (usedTable n).install 0 () := by
      rw [step, mlqjsCreate_of_free hwf (firstFree_usedTable n)]
    have hdestroy : step ((usedTable n).install 0 ()) (.destroy ((n + 1 : Nat) * 2 ^ 16)) =
        { (usedTable n).install 0 () with table := Function.update ((usedTable n).install 0 ()).table 0 none } := by
      rw [step, mlqjsDestroy, tableGet_usedTable (by omega) hwf]
    rw [cycles, run_append, ih (by omega), List.foldl_cons, List.foldl_cons, List.foldl_nil, hcreate, hdestroy]
    refine Table.ext (funext fun j => ?_) (funext fun j => ?_)
    · by_cases hj : j = 0
      · subst hj
        simp [usedTable]
      · simp [Table.install, usedTable, hj]
    · by_cases hj : j = 0
      · subst hj
        simp only [Table.install, Function.update_self, hnext]
        simp [usedTable]
      · simp [Table.install, usedTable, hj]

theorem not_resolve_after_cycles {n : Nat} (hn : n = 32767) :
    ¬ ∀ evs', evs' <+: cycles n ++ [.create (.ok ())] → HandlesResolve evs' := by
  intro hall
  have hwf := wf_run (cycles n)
  have hrun : run (cycles n) = usedTable n := run_cycles (by omega)
  have hfree : (run (cycles n)).firstFree = some 0 := by
    rw [hrun]
    rfl
  have hhandle : handleOf (run (cycles n)) (.create (.ok ())) = some ((run (cycles n)).handleAt 0) := by
    simp only [handleOf, mlqjsCreate_of_free hwf hfree]
  obtain ⟨i, hi⟩ := hall _ (List.prefix_refl _) (cycles n) () [] _ rfl hhandle (by simp)
  obtain ⟨g, hk, _⟩ := (tableGet_eq_some (wf_run _)).1 hi
  rw [keyOf_handleAt hwf (firstFree_eq_some hfree), if_neg] at hk
  · cases hk
  · rw [hrun]
    simp [usedTable, hn]

/-- After 32767 cycles the next engine is created, but its handle `0x80000000` resolves to nothing. -/
theorem unresolvable_after_cycles :
    ¬ ∀ evs', evs' <+: cycles 32767 ++ [.create (.ok ())] → HandlesResolve evs' :=
  not_resolve_after_cycles rfl

end MirageLambda.Qjs
