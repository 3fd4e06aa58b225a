import MirageLambda.Common.Ids

/-!
# Capabilities (common/capability.ml)

The host operations a grant authorizes, the compiled policy, the authorization query and the
intersection of two policies.

`CoveredBy g h` is the authority order behind "never grants more authority than either operand"
(capability.ml:5, :194): same binding, the operation the same or narrower, each limit no looser.
It is a preorder, and `intersection` keeps the left operand's record of every grant that `op_equal`
finds in the right operand. Two things `op_equal` does not look at make the result exceed the right
operand: the operation list of a secret (`:190`) and the limits of the grant.
`intersection_sound_iff` gives the pairs of policies on which the result stays within both.
-/

namespace MirageLambda
open OCaml

/-! ## Operations, grants, policies -/

/-- `Function_ref.t` (capability.ml:13). -/
structure FunctionRef where
  name : FunctionName
  qualifier : Qualifier
deriving DecidableEq

/-- `Function_ref.of_string` (capability.ml:22). -/
def FunctionRef.ofString (s : Str) : Outcome Validation FunctionRef :=
  match indexOpt s (chr '@') with
  | none => .error ⟨str "invoke", str "missing @qualifier"⟩
  | some i => do
    let n ← sub s 0 i
    let q ← sub s (i + 1) ((s.length : Int) - i - 1)
    let name ← FunctionName.ofString n
    let qualifier ← Qualifier.ofString q
    pure { name, qualifier }

/-- `Http_policy.method_` (capability.ml:37). -/
inductive Method where
  | get | post | put | patch | delete | head
deriving DecidableEq, Repr

/-- `Http_policy.method_of_string` (capability.ml:41). -/
def methodOfString (s : Str) : Option Method :=
  if s = str "GET" then some .get
  else if s = str "POST" then some .post
  else if s = str "PUT" then some .put
  else if s = str "PATCH" then some .patch
  else if s = str "DELETE" then some .delete
  else if s = str "HEAD" then some .head
  else none

/-- `Http_policy.scheme` (capability.ml:45). -/
inductive Scheme where
  | https | http
deriving DecidableEq, Repr

/-- `Http_policy.scheme_of_string` (capability.ml:46). -/
def schemeOfString (s : Str) : Option Scheme :=
  if s = str "https" then some .https else if s = str "http" then some .http else none

/-- `Http_policy.t` (capability.ml:47). -/
structure HttpPolicy where
  schemes : List Scheme
  hosts : List Str
  ports : List Int
  methods : List Method
  maxResponseBytes : Int
deriving DecidableEq, Repr

/-- `Secret_policy.operation` (capability.ml:62). -/
inductive SecretOp where
  | sign | verify | hmac | encrypt | decrypt
deriving DecidableEq, Repr

/-- `Secret_policy.t` (capability.ml:63). -/
structure SecretPolicy where
  keyId : Str
  operations : List SecretOp
deriving DecidableEq, Repr

/-- `Operation_limits.t` (capability.ml:70): `none` is unlimited. -/
structure OperationLimits where
  maxCalls : Option Int
  maxBytes : Option Int
deriving DecidableEq, Repr

/-- `Operation_limits.none` (capability.ml:74). -/
def OperationLimits.none : OperationLimits := ⟨Option.none, Option.none⟩

/-- `Capability.operation` (capability.ml:79). -/
inductive Operation where
  | kvGet (store : StoreId) (keyPrefix : KeyPrefix)
  | kvPut (store : StoreId) (keyPrefix : KeyPrefix)
  | kvDelete (store : StoreId) (keyPrefix : KeyPrefix)
  | logAppend (stream : LogStream)
  | httpRequest (policy : HttpPolicy)
  | clockMonotonic
  | clockWall
  | randomCrypto
  | invokeFunction (target : FunctionRef)
  | secretOperation (policy : SecretPolicy)
deriving DecidableEq

/-- `Capability.grant` (capability.ml:91). -/
structure Grant where
  binding : BindingName
  operation : Operation
  limits : OperationLimits
deriving DecidableEq

/-- `Capability.policy` (capability.ml:101). -/
structure Policy where
  grants : List Grant
deriving DecidableEq

/-- `Capability.empty` (capability.ml:105). -/
def Policy.empty : Policy := ⟨[]⟩

/-- `sort_grants` (capability.ml:110): `List.sort` on the binding name. -/
def sortGrants (gs : List Grant) : List Grant :=
  gs.insertionSort fun a b => compare a.binding.toStr b.binding.toStr ≠ .gt

/-- `mk_policy` (capability.ml:112). -/
def mkPolicy (gs : List Grant) : Policy := ⟨sortGrants gs⟩

theorem mem_sortGrants {gs : List Grant} {g : Grant} : g ∈ sortGrants gs ↔ g ∈ gs :=
  (List.perm_insertionSort _ gs).mem_iff

/-! ## Declarations and `compile` -/

/-- The `access` of a kv declaration (capability.ml:118). -/
inductive Access where
  | read | write | readWrite
deriving DecidableEq, Repr

structure KvDecl where
  binding : BindingName
  store : StoreId
  access : Access
  keyPrefix : KeyPrefix
deriving DecidableEq

structure HttpDecl where
  binding : BindingName
  policy : HttpPolicy
deriving DecidableEq

structure InvokeDecl where
  binding : BindingName
  target : FunctionRef
deriving DecidableEq

inductive Clock where
  | monotonic | wall | none
deriving DecidableEq, Repr

inductive RandomDecl where
  | cryptographic | none
deriving DecidableEq, Repr

/-- `Capability.declarations` (capability.ml:129). -/
structure Declarations where
  kv : List KvDecl
  http : List HttpDecl
  clock : Clock
  random : RandomDecl
  logs : Bool
  invoke : List InvokeDecl
deriving DecidableEq

/-- `op_access` (capability.ml:148). -/
def opAccess (k : KvDecl) : List Operation :=
  match k.access with
  | .read => [.kvGet k.store k.keyPrefix]
  | .write => [.kvPut k.store k.keyPrefix, .kvDelete k.store k.keyPrefix]
  | .readWrite => [.kvGet k.store k.keyPrefix, .kvPut k.store k.keyPrefix, .kvDelete k.store k.keyPrefix]

/-- `push` of an unlimited grant in front of the list (capability.ml:145). -/
def push (binding : BindingName) (operation : Operation) (gs : List Grant) : List Grant :=
  ⟨binding, operation, .none⟩ :: gs

/-- `Capability.compile` (capability.ml:143). -/
def compile (d : Declarations) : Outcome Validation Policy := do
  let gs := d.kv.foldl (fun gs k => (opAccess k).foldl (fun gs op => push k.binding op gs) gs) []
  let gs := d.http.foldl (fun gs h => push h.binding (.httpRequest h.policy) gs) gs
  let gs ← match d.clock with
    | .monotonic => do pure (push (← BindingName.ofStringExn (str "clock")) .clockMonotonic gs)
    | .wall => do pure (push (← BindingName.ofStringExn (str "clock")) .clockWall gs)
    | .none => pure gs
  let gs ← match d.random with
    | .cryptographic => do pure (push (← BindingName.ofStringExn (str "crypto")) .randomCrypto gs)
    | .none => pure gs
  let gs ← if d.logs then do
      let b ← BindingName.ofStringExn (str "log")
      let stream ← Slug.ofStringExn (str "stream") (str "default")
      pure (push b (.logAppend stream) gs)
    else pure gs
  let gs := d.invoke.foldl (fun gs i => push i.binding (.invokeFunction i.target) gs) gs
  pure (mkPolicy gs)

/-- The three `of_string_exn` calls of `compile` are on constants that are accepted, and every
branch ends in `Ok`. -/
theorem compile_ok (d : Declarations) : ∃ p, compile d = .ok p := by
  obtain ⟨kv, http, clock, random, logs, invoke⟩ := d
  cases clock <;> cases random <;> cases logs <;> exact ⟨_, rfl⟩

/-! ## `op_equal`, `intersection`, `grants` -/

/-- `op_equal` (capability.ml:178): a secret is compared by its key only. -/
def opEqual : Operation → Operation → Bool
  | .kvGet s p, .kvGet s' p' => s == s' && p == p'
  | .kvPut s p, .kvPut s' p' => s == s' && p == p'
  | .kvDelete s p, .kvDelete s' p' => s == s' && p == p'
  | .logAppend s, .logAppend s' => s == s'
  | .httpRequest x, .httpRequest y =>
    x.schemes == y.schemes && x.hosts == y.hosts && x.ports == y.ports && x.methods == y.methods &&
      x.maxResponseBytes == y.maxResponseBytes
  | .clockMonotonic, .clockMonotonic => true
  | .clockWall, .clockWall => true
  | .randomCrypto, .randomCrypto => true
  | .invokeFunction x, .invokeFunction y => x.name == y.name && x.qualifier == y.qualifier
  | .secretOperation x, .secretOperation y => x.keyId == y.keyId
  | _, _ => false

/-- The match of both `intersection` and `grants`: same binding, `op_equal` operations. -/
def matchesGrant (binding : BindingName) (operation : Operation) (g : Grant) : Bool :=
  binding == g.binding && opEqual operation g.operation

/-- `intersection` (capability.ml:202). -/
def intersection (a b : Policy) : Policy :=
  let inB (g : Grant) := b.grants.any (matchesGrant g.binding g.operation)
  ⟨sortGrants (a.grants.filter inB)⟩

/-- `grants` (capability.ml:211). -/
def Policy.allows (p : Policy) (binding : BindingName) (operation : Operation) : Bool :=
  p.grants.any fun g => g.binding == binding && opEqual g.operation operation

/-- Same key for two secrets, otherwise the same operation. -/
theorem opEqual_iff {x y : Operation} : opEqual x y = true ↔
    x = y ∨ ∃ p q, x = .secretOperation p ∧ y = .secretOperation q ∧ p.keyId = q.keyId := by
  cases x <;> cases y <;> simp [opEqual]
  case httpRequest.httpRequest p q =>
    cases p; cases q
    simp [and_assoc]
  case invokeFunction.invokeFunction p q =>
    cases p; cases q
    simp
  case secretOperation.secretOperation p q =>
    exact fun h => congrArg _ h

theorem matchesGrant_iff {b : BindingName} {o : Operation} {g : Grant} :
    matchesGrant b o g = true ↔ b = g.binding ∧ opEqual o g.operation = true := by
  simp [matchesGrant]

theorem mem_intersection {a b : Policy} {g : Grant} :
    g ∈ (intersection a b).grants ↔
      g ∈ a.grants ∧ ∃ h ∈ b.grants, matchesGrant g.binding g.operation h = true := by
  simp [intersection, mem_sortGrants]

/-! ### The query against an intersection

`intersection` compares stored grants with each other, `grants` a stored grant with the query. The two
agree because `op_equal` is an equivalence. -/

/-- `op_equal` is an equivalence over all ten constructors. -/
theorem opEqual_equivalence : Equivalence fun x y => opEqual x y = true where
  refl x := opEqual_iff.2 (Or.inl rfl)
  symm := by
    intro x y h
    rw [opEqual_iff] at h ⊢
    rcases h with h | ⟨p, q, hx, hy, hk⟩
    · exact Or.inl h.symm
    · exact Or.inr ⟨q, p, hy, hx, hk.symm⟩
  trans := by
    intro x y z hxy hyz
    rw [opEqual_iff] at hxy hyz ⊢
    rcases hxy with rfl | ⟨p, q, hx, hy, hk⟩
    · exact hyz
    · rcases hyz with rfl | ⟨q', r, hy', hz, hk'⟩
      · exact Or.inr ⟨p, q, hx, hy, hk⟩
      · -- Both secrets in the middle are the same one.
        rw [hy] at hy'
        injection hy' with hq
        subst hq
        exact Or.inr ⟨p, r, hx, hz, hk.trans hk'⟩

theorem allows_iff {p : Policy} {binding : BindingName} {operation : Operation} :
    p.allows binding operation = true ↔
      ∃ g ∈ p.grants, g.binding = binding ∧ opEqual g.operation operation = true := by
  simp [Policy.allows]

/-- An intersection grants what both operands grant. -/
theorem allows_intersection (a b : Policy) (binding : BindingName) (operation : Operation) :
    (intersection a b).allows binding operation =
      (a.allows binding operation && b.allows binding operation) := by
  rw [Bool.eq_iff_iff, Bool.and_eq_true, allows_iff, allows_iff, allows_iff]
  constructor
  · rintro ⟨g, hg, hbind, hop⟩
    obtain ⟨hga, h, hh, hm⟩ := mem_intersection.1 hg
    obtain ⟨hb, ho⟩ := matchesGrant_iff.1 hm
    refine ⟨⟨g, hga, hbind, hop⟩, h, hh, hb.symm.trans hbind, ?_⟩
    exact opEqual_equivalence.trans (opEqual_equivalence.symm ho) hop
  · rintro ⟨⟨g, hg, hbind, hop⟩, h, hh, hbind', hop'⟩
    refine ⟨g, mem_intersection.2 ⟨hg, h, hh, ?_⟩, hbind, hop⟩
    have ho := opEqual_equivalence.trans hop (opEqual_equivalence.symm hop')
    exact matchesGrant_iff.2 ⟨hbind.trans hbind'.symm, ho⟩

/-- **The authorization query is a homomorphism for intersection**, which is therefore commutative,
associative and idempotent as seen through the query. -/
theorem allows_intersection_semilattice (a b c : Policy) (binding : BindingName) (operation : Operation) :
    (intersection a b).allows binding operation =
        (a.allows binding operation && b.allows binding operation) ∧
      (intersection a b).allows binding operation = (intersection b a).allows binding operation ∧
      (intersection (intersection a b) c).allows binding operation =
        (intersection a (intersection b c)).allows binding operation ∧
      (intersection a a).allows binding operation = a.allows binding operation := by
  simp only [allows_intersection]
  exact ⟨trivial, Bool.and_comm _ _, Bool.and_assoc _ _ _, Bool.and_self _⟩

/-! ## The authority order -/

/-- `x` is the operation `y`, or for a secret the same key with a subset of the operations. -/
def Narrower (x y : Operation) : Prop :=
  x = y ∨ ∃ p q, x = .secretOperation p ∧ y = .secretOperation q ∧ p.keyId = q.keyId ∧
    p.operations ⊆ q.operations

/-- A limit no looser than another; `none` is unlimited. -/
def NoLooser (x y : Option Int) : Prop := ∀ m, y = some m → ∃ n, x = some n ∧ n ≤ m

/-- The authority of `g` is within that of `h`. -/
structure CoveredBy (g h : Grant) : Prop where
  binding : g.binding = h.binding
  operation : Narrower g.operation h.operation
  calls : NoLooser g.limits.maxCalls h.limits.maxCalls
  bytes : NoLooser g.limits.maxBytes h.limits.maxBytes

theorem NoLooser.refl (x : Option Int) : NoLooser x x := fun m hm => ⟨m, hm, le_refl m⟩

theorem CoveredBy.refl (g : Grant) : CoveredBy g g :=
  ⟨rfl, Or.inl rfl, NoLooser.refl _, NoLooser.refl _⟩

theorem Narrower.opEqual {x y : Operation} (h : Narrower x y) : opEqual x y = true := by
  rw [opEqual_iff]
  rcases h with h | ⟨p, q, hx, hy, hk, _⟩
  · exact Or.inl h
  · exact Or.inr ⟨p, q, hx, hy, hk⟩

/-- Where `op_equal` holds, `x` is narrower than `y` unless `x` is a secret with an operation that
`y` does not list. -/
theorem narrower_of_opEqual {x y : Operation} (h : MirageLambda.opEqual x y = true)
    (hs : ∀ p q, x = .secretOperation p → y = .secretOperation q → p.operations ⊆ q.operations) :
    Narrower x y := by
  rcases opEqual_iff.1 h with h | ⟨p, q, hx, hy, hk⟩
  · exact Or.inl h
  · exact Or.inr ⟨p, q, hx, hy, hk, hs p q hx hy⟩

/-- What `op_equal` leaves out: `h` lists every operation of a secret that `g` lists, and none of
its limits is tighter than `g`'s. -/
def Yields (g h : Grant) : Prop :=
  (∀ p q, g.operation = .secretOperation p → h.operation = .secretOperation q →
    p.operations ⊆ q.operations) ∧
  NoLooser g.limits.maxCalls h.limits.maxCalls ∧ NoLooser g.limits.maxBytes h.limits.maxBytes

theorem coveredBy_iff {g h : Grant} :
    CoveredBy g h ↔ matchesGrant g.binding g.operation h = true ∧ Yields g h := by
  rw [matchesGrant_iff]
  constructor
  · intro hc
    refine ⟨⟨hc.binding, hc.operation.opEqual⟩, fun p q hp hq => ?_, hc.calls, hc.bytes⟩
    rcases hc.operation with heq | ⟨p', q', hp', hq', _, hsub⟩
    · rw [hp, hq] at heq
      injection heq with heq
      rw [heq]
      exact List.Subset.refl _
    · rw [hp] at hp'
      rw [hq] at hq'
      injection hp' with hp'
      injection hq' with hq'
      rw [hp', hq']
      exact hsub
  · rintro ⟨⟨hb, ho⟩, hs, hcalls, hbytes⟩
    exact ⟨hb, narrower_of_opEqual ho hs, hcalls, hbytes⟩

/-- **When intersection stays within both operands**: exactly when every grant of `a` that finds
a match in `b` also finds one there that lists all its secret operations and has no tighter limit. -/
theorem intersection_sound_iff (a b : Policy) :
    (∀ g ∈ (intersection a b).grants,
      (∃ h ∈ a.grants, CoveredBy g h) ∧ ∃ h ∈ b.grants, CoveredBy g h) ↔
    ∀ g ∈ a.grants, (∃ h ∈ b.grants, matchesGrant g.binding g.operation h = true) →
      ∃ h ∈ b.grants, matchesGrant g.binding g.operation h = true ∧ Yields g h := by
  constructor
  · intro hsound g hg hmatch
    obtain ⟨_, h, hh, hcov⟩ := hsound g (mem_intersection.2 ⟨hg, hmatch⟩)
    exact ⟨h, hh, coveredBy_iff.1 hcov⟩
  · intro hyields g hg
    obtain ⟨hga, hmatch⟩ := mem_intersection.1 hg
    obtain ⟨h, hh, hcov⟩ := hyields g hga hmatch
    exact ⟨⟨g, hga, CoveredBy.refl g⟩, h, hh, coveredBy_iff.2 hcov⟩

/-- A grant for the operations `ops` of key `k1`, limited to `calls` calls, under binding `vault`. -/
def secretGrant (ops : List SecretOp) (calls : Option Int) : Grant :=
  { binding := ⟨str "vault", by decide⟩
    operation := .secretOperation ⟨str "k1", ops⟩
    limits := ⟨calls, none⟩ }

/-- `a` may sign and decrypt with `k1` without limit, `b` may sign ten times: their intersection
may decrypt, and without limit. -/
theorem intersection_exceeds_right :
    ∃ g ∈ (intersection ⟨[secretGrant [.sign, .decrypt] none]⟩ ⟨[secretGrant [.sign] (some 10)]⟩).grants,
      ¬ ∃ h ∈ (Policy.mk [secretGrant [.sign] (some 10)]).grants, CoveredBy g h := by
  refine ⟨secretGrant [.sign, .decrypt] none, by decide, ?_⟩
  rintro ⟨h, hh, hcov⟩
  obtain rfl : h = secretGrant [.sign] (some 10) := by simpa using hh
  obtain ⟨n, hn, _⟩ := hcov.calls 10 rfl
  cases hn

end MirageLambda
