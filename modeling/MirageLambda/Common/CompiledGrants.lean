import MirageLambda.Lib.KeySort
import MirageLambda.Common.Capability

/-!
# What a compiled policy grants (common/capability.ml:143-175)

`compile` pushes one grant after the other in front of an accumulator and sorts the result by binding.
`Declared d b o` says what the declarations `d` ask for, one operation at a time; the grants of the policy
are those, without limits and nothing else (`mem_compiledGrants`), and the authorization query sees exactly those
(`compile_grants_declared`).
-/

namespace MirageLambda
open OCaml

/-- The declarations `d` ask for operation `o` under binding `b`. Nothing declares a secret. -/
def Declared (d : Declarations) (b : BindingName) : Operation → Prop
  | .kvGet store keyPrefix => ∃ k ∈ d.kv, k.binding = b ∧ k.store = store ∧ k.keyPrefix = keyPrefix ∧
      (k.access = .read ∨ k.access = .readWrite)
  | .kvPut store keyPrefix | .kvDelete store keyPrefix => ∃ k ∈ d.kv, k.binding = b ∧ k.store = store ∧
      k.keyPrefix = keyPrefix ∧ (k.access = .write ∨ k.access = .readWrite)
  | .httpRequest policy => ∃ h ∈ d.http, h.binding = b ∧ h.policy = policy
  | .clockMonotonic => d.clock = .monotonic ∧ b.toStr = str "clock"
  | .clockWall => d.clock = .wall ∧ b.toStr = str "clock"
  | .randomCrypto => d.random = .cryptographic ∧ b.toStr = str "crypto"
  | .logAppend stream => d.logs = true ∧ b.toStr = str "log" ∧ stream.toStr = str "default"
  | .invokeFunction target => ∃ i ∈ d.invoke, i.binding = b ∧ i.target = target
  | .secretOperation _ => False

/-! ## The accumulator -/

theorem mem_push {b : BindingName} {o : Operation} {gs : List Grant} {g : Grant} :
    g ∈ push b o gs ↔ g ∈ gs ∨ g = ⟨b, o, .none⟩ := by
  rw [push, List.mem_cons, or_comm]

/-- A loop that only adds: what is there at the end was there before or was added on the way. -/
theorem mem_foldl_iff {α : Type} {f : List Grant → α → List Grant} (added : α → Grant → Prop)
    (hf : ∀ gs x g, g ∈ f gs x ↔ g ∈ gs ∨ added x g) (xs : List α) (gs : List Grant) (g : Grant) :
    g ∈ xs.foldl f gs ↔ g ∈ gs ∨ ∃ x ∈ xs, added x g := by
  induction xs generalizing gs with
  | nil => simp
  | cons x xs ih =>
    rw [List.foldl_cons, ih, hf]
    simp only [List.mem_cons, exists_eq_or_imp, or_assoc]

theorem mem_opAccess {k : KvDecl} {o : Operation} : o ∈ opAccess k ↔
    (o = .kvGet k.store k.keyPrefix ∧ (k.access = .read ∨ k.access = .readWrite)) ∨
      ((o = .kvPut k.store k.keyPrefix ∨ o = .kvDelete k.store k.keyPrefix) ∧
        (k.access = .write ∨ k.access = .readWrite)) := by
  unfold opAccess
  cases k.access <;> simp

/-- The grants of the kv declarations (capability.ml:147-157). -/
theorem mem_kv {ks : List KvDecl} {gs : List Grant} {g : Grant} :
    g ∈ ks.foldl (fun gs k => (opAccess k).foldl (fun gs op => push k.binding op gs) gs) gs ↔
      g ∈ gs ∨ ∃ k ∈ ks, ∃ o ∈ opAccess k, g = ⟨k.binding, o, .none⟩ := by
  refine mem_foldl_iff (fun k g => ∃ o ∈ opAccess k, g = ⟨k.binding, o, .none⟩) (fun gs k g => ?_) ks gs g
  exact mem_foldl_iff (fun o g => g = ⟨k.binding, o, .none⟩) (fun _ _ _ => mem_push) (opAccess k) gs g

/-- The grants of the http declarations (capability.ml:158-160). -/
theorem mem_http {hs : List HttpDecl} {gs : List Grant} {g : Grant} :
    g ∈ hs.foldl (fun gs h => push h.binding (.httpRequest h.policy) gs) gs ↔
      g ∈ gs ∨ ∃ h ∈ hs, g = ⟨h.binding, .httpRequest h.policy, .none⟩ :=
  mem_foldl_iff (fun h g => g = ⟨h.binding, .httpRequest h.policy, .none⟩) (fun _ _ _ => mem_push) hs gs g

/-- The grants of the invoke declarations (capability.ml:172-174). -/
theorem mem_invoke {is : List InvokeDecl} {gs : List Grant} {g : Grant} :
    g ∈ is.foldl (fun gs i => push i.binding (.invokeFunction i.target) gs) gs ↔
      g ∈ gs ∨ ∃ i ∈ is, g = ⟨i.binding, .invokeFunction i.target, .none⟩ :=
  mem_foldl_iff (fun i g => g = ⟨i.binding, .invokeFunction i.target, .none⟩) (fun _ _ _ => mem_push) is gs g

/-! ## The switches -/

theorem bindingNameCheck_clock : bindingNameCheck (str "clock") = .ok () := by decide
theorem bindingNameCheck_crypto : bindingNameCheck (str "crypto") = .ok () := by decide
theorem bindingNameCheck_log : bindingNameCheck (str "log") = .ok () := by decide
theorem validateSlug_default : validateSlug (str "stream") (str "default") = .ok () := by decide

def clockBinding : BindingName := ⟨str "clock", bindingNameCheck_clock⟩
def cryptoBinding : BindingName := ⟨str "crypto", bindingNameCheck_crypto⟩
def logBinding : BindingName := ⟨str "log", bindingNameCheck_log⟩
def defaultStream : LogStream := ⟨str "default", validateSlug_default⟩

/-- The switch of the clock (capability.ml:161-164), its `of_string_exn` carried out. -/
def clockGrants (clock : Clock) (gs : List Grant) : List Grant :=
  match clock with
  | .monotonic => push clockBinding .clockMonotonic gs
  | .wall => push clockBinding .clockWall gs
  | .none => gs

/-- The switch of the randomness (capability.ml:165-167). -/
def randomGrants (random : RandomDecl) (gs : List Grant) : List Grant :=
  match random with
  | .cryptographic => push cryptoBinding .randomCrypto gs
  | .none => gs

/-- The switch of the logs (capability.ml:168-171). -/
def logGrants (logs : Bool) (gs : List Grant) : List Grant :=
  if logs then push logBinding (.logAppend defaultStream) gs else gs

/-- The accumulator when `compile` sorts it. -/
def compiledGrants (d : Declarations) : List Grant :=
  let gs := d.kv.foldl (fun gs k => (opAccess k).foldl (fun gs op => push k.binding op gs) gs) []
  let gs := d.http.foldl (fun gs h => push h.binding (.httpRequest h.policy) gs) gs
  let gs := logGrants d.logs (randomGrants d.random (clockGrants d.clock gs))
  d.invoke.foldl (fun gs i => push i.binding (.invokeFunction i.target) gs) gs

/-- No constant that `compile` hands to `of_string_exn` is refused. -/
theorem compile_eq (d : Declarations) : compile d = .ok (mkPolicy (compiledGrants d)) := by
  obtain ⟨kv, http, clock, random, logs, invoke⟩ := d
  cases clock <;> cases random <;> cases logs <;> rfl

/-- A grant under a fixed binding. -/
theorem eq_fixed_iff {name : Str} {b₀ : BindingName} (hb₀ : b₀.toStr = name) {o : Operation} {g : Grant} :
    g = ⟨b₀, o, .none⟩ ↔ g.limits = .none ∧ g.binding.toStr = name ∧ g.operation = o := by
  obtain ⟨b, o', l⟩ := g
  simp only [Grant.mk.injEq]
  constructor
  · rintro ⟨rfl, rfl, rfl⟩
    exact ⟨rfl, hb₀, rfl⟩
  · rintro ⟨rfl, hb, rfl⟩
    exact ⟨Checked.ext (hb.trans hb₀.symm), rfl, rfl⟩

theorem mem_clockGrants {clock : Clock} {gs : List Grant} {g : Grant} : g ∈ clockGrants clock gs ↔
    g ∈ gs ∨ (g.limits = .none ∧ g.binding.toStr = str "clock" ∧
      ((clock = .monotonic ∧ g.operation = .clockMonotonic) ∨ (clock = .wall ∧ g.operation = .clockWall))) := by
  have hname : clockBinding.toStr = str "clock" := rfl
  cases clock with
  | monotonic => simp [clockGrants, mem_push, eq_fixed_iff hname]
  | wall => simp [clockGrants, mem_push, eq_fixed_iff hname]
  | none => simp [clockGrants]

theorem mem_randomGrants {random : RandomDecl} {gs : List Grant} {g : Grant} : g ∈ randomGrants random gs ↔
    g ∈ gs ∨ (g.limits = .none ∧ g.binding.toStr = str "crypto" ∧
      random = .cryptographic ∧ g.operation = .randomCrypto) := by
  have hname : cryptoBinding.toStr = str "crypto" := rfl
  cases random with
  | cryptographic => simp [randomGrants, mem_push, eq_fixed_iff hname]
  | none => simp [randomGrants]

theorem mem_logGrants {logs : Bool} {gs : List Grant} {g : Grant} : g ∈ logGrants logs gs ↔
    g ∈ gs ∨ (g.limits = .none ∧ g.binding.toStr = str "log" ∧
      logs = true ∧ ∃ stream : LogStream, stream.toStr = str "default" ∧ g.operation = .logAppend stream) := by
  have hname : logBinding.toStr = str "log" := rfl
  have hstream : ∀ o : Operation, (∃ stream : LogStream, stream.toStr = str "default" ∧ o = .logAppend stream) ↔
      o = .logAppend defaultStream := by
    intro o
    constructor
    · rintro ⟨stream, hs, rfl⟩
      exact congrArg Operation.logAppend (Checked.ext hs)
    · rintro rfl
      exact ⟨_, rfl, rfl⟩
  cases logs with
  | true => simp [logGrants, mem_push, eq_fixed_iff hname, hstream]
  | false => simp [logGrants]

/-! ## The policy -/

/-- One operation of a kv declaration, found in the accumulator. -/
theorem exists_kv_iff {ks : List KvDecl} (permits : Access → Prop) {store : StoreId} {keyPrefix : KeyPrefix}
    {b : BindingName} {l : OperationLimits} :
    (∃ k ∈ ks, ((store = k.store ∧ keyPrefix = k.keyPrefix) ∧ permits k.access) ∧ b = k.binding ∧ l = .none) ↔
      l = .none ∧ ∃ k ∈ ks, k.binding = b ∧ k.store = store ∧ k.keyPrefix = keyPrefix ∧ permits k.access := by
  constructor
  · rintro ⟨k, hk, ⟨⟨rfl, rfl⟩, haccess⟩, rfl, rfl⟩
    exact ⟨rfl, k, hk, rfl, rfl, rfl, haccess⟩
  · rintro ⟨rfl, k, hk, rfl, rfl, rfl, haccess⟩
    exact ⟨k, hk, ⟨⟨rfl, rfl⟩, haccess⟩, rfl, rfl⟩

/-- A declaration that asks for one operation, found in the accumulator. -/
theorem exists_decl_iff {α ω : Type} {xs : List α} (binding : α → BindingName) (value : α → ω) {v : ω}
    {b : BindingName} {l : OperationLimits} :
    (∃ x ∈ xs, b = binding x ∧ v = value x ∧ l = .none) ↔ l = .none ∧ ∃ x ∈ xs, binding x = b ∧ value x = v := by
  constructor
  · rintro ⟨x, hx, rfl, rfl, rfl⟩
    exact ⟨rfl, x, hx, rfl, rfl⟩
  · rintro ⟨rfl, x, hx, rfl, rfl⟩
    exact ⟨x, hx, rfl, rfl, rfl⟩

/-- The accumulator holds what the declarations ask for, each operation without limits. -/
theorem mem_compiledGrants {d : Declarations} {g : Grant} :
    g ∈ compiledGrants d ↔ g.limits = .none ∧ Declared d g.binding g.operation := by
  obtain ⟨b, o, l⟩ := g
  simp only [compiledGrants, mem_invoke, mem_logGrants, mem_randomGrants, mem_clockGrants, mem_http, mem_kv,
    mem_opAccess, List.not_mem_nil, false_or, Grant.mk.injEq]
  cases o with
  | kvGet store keyPrefix => simpa [Declared] using exists_kv_iff fun a => a = .read ∨ a = .readWrite
  | kvPut store keyPrefix => simpa [Declared] using exists_kv_iff fun a => a = .write ∨ a = .readWrite
  | kvDelete store keyPrefix => simpa [Declared] using exists_kv_iff fun a => a = .write ∨ a = .readWrite
  | logAppend stream => simp [Declared, and_left_comm]
  | httpRequest policy => simpa [Declared] using exists_decl_iff HttpDecl.binding HttpDecl.policy
  | clockMonotonic => simp [Declared, and_comm]
  | clockWall => simp [Declared, and_comm]
  | randomCrypto => simp [Declared, and_comm]
  | invokeFunction target => simpa [Declared] using exists_decl_iff InvokeDecl.binding InvokeDecl.target
  | secretOperation policy => simp [Declared]

/-- The authorization query on a policy without secrets. -/
theorem allows_iff_of_no_secret {p : Policy} (hp : ∀ g ∈ p.grants, ∀ s, g.operation ≠ .secretOperation s)
    {b : BindingName} {o : Operation} :
    p.allows b o = true ↔ ∃ g ∈ p.grants, g.binding = b ∧ g.operation = o := by
  rw [allows_iff]
  refine exists_congr fun g => and_congr_right fun hg => and_congr_right fun _ => ?_
  rw [opEqual_iff]
  refine or_iff_left ?_
  rintro ⟨s, _, hs, _⟩
  exact hp g hg s hs

/-- **`compile` grants exactly what is declared**, sorted by binding. -/
theorem compile_grants_declared (d : Declarations) : ∃ p, compile d = .ok p ∧
    p.grants.Pairwise (fun g h => compare g.binding.toStr h.binding.toStr ≠ .gt) ∧
    (∀ b o, p.allows b o = true ↔ Declared d b o) ∧
    ∀ b s, p.allows b (.secretOperation s) = false := by
  have hmem : ∀ g, g ∈ (mkPolicy (compiledGrants d)).grants ↔ g.limits = .none ∧ Declared d g.binding g.operation :=
    fun g => mem_sortGrants.trans mem_compiledGrants
  have hno : ∀ g ∈ (mkPolicy (compiledGrants d)).grants, ∀ s, g.operation ≠ .secretOperation s := by
    intro g hg s hs
    have hdeclared := ((hmem g).1 hg).2
    rw [hs] at hdeclared
    exact hdeclared
  have hallows : ∀ b o, (mkPolicy (compiledGrants d)).allows b o = true ↔ Declared d b o := by
    intro b o
    rw [allows_iff_of_no_secret hno]
    constructor
    · rintro ⟨g, hg, rfl, rfl⟩
      exact ((hmem g).1 hg).2
    · intro h
      exact ⟨⟨b, o, .none⟩, (hmem _).2 ⟨rfl, h⟩, rfl, rfl⟩
  refine ⟨_, compile_eq d, ?_, hallows, fun b s => ?_⟩
  · exact List.pairwise_insertionSort (KeySort.KeyLe fun g : Grant => g.binding.toStr) _
  · rw [← Bool.not_eq_true, hallows]
    exact not_false

end MirageLambda
