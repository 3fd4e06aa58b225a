import MirageLambda.Lib.Str

/-!
# How an OCaml call ends

A function of type `(α, ε) result` ends with `Ok`, with `Error`, or with an exception that leaves
it. `Outcome ε α` keeps the three apart; its `bind` is `Result.bind` (the `let*` of the sources),
through which an exception passes unchanged. A function that returns a plain value but may raise
is an `Outcome` with an arbitrary `ε`.

`Checked check` is the type of a smart constructor: the strings that `check` accepts, so that a
value of it cannot be built around a string the constructor refuses.
-/

namespace OCaml

/-- The exceptions of the standard library that the sources can meet; `ext` is one that another
library declares (`Yojson.Json_error`, `Unix.Unix_error`).

`aborted` is no exception: an assertion of the C code has failed and the process is gone. It leaves
every call as an exception does, and nothing catches it. -/
inductive Exn where
  | invalidArgument (msg : Str)
  | failure (msg : Str)
  | notFound
  | sysError (msg : Str)
  | endOfFile
  | ext (name : String) (msg : Str)
  | aborted
deriving DecidableEq, Repr

inductive Outcome (ε α : Type) where
  | ok (a : α)
  | error (e : ε)
  | raised (x : Exn)
deriving DecidableEq, Repr

namespace Outcome

variable {ε ε' α β : Type}

def bind : Outcome ε α → (α → Outcome ε β) → Outcome ε β
  | .ok a, f => f a
  | .error e, _ => .error e
  | .raised x, _ => .raised x

instance : Monad (Outcome ε) where
  pure := .ok
  bind := bind

@[simp] theorem pure_eq (a : α) : (pure a : Outcome ε α) = .ok a := rfl
@[simp] theorem ok_bind (a : α) (f : α → Outcome ε β) : (Outcome.ok a >>= f) = f a := rfl
@[simp] theorem error_bind (e : ε) (f : α → Outcome ε β) :
    ((Outcome.error e : Outcome ε α) >>= f) = .error e := rfl
@[simp] theorem raised_bind (x : Exn) (f : α → Outcome ε β) :
    ((Outcome.raised x : Outcome ε α) >>= f) = .raised x := rfl

theorem bind_bind (x : Outcome ε α) (f : α → Outcome ε β) {γ : Type} (g : β → Outcome ε γ) :
    ((x >>= f) >>= g) = x >>= fun a => f a >>= g := by
  cases x <;> rfl

theorem bind_eq_ok {x : Outcome ε α} {f : α → Outcome ε β} {b : β} :
    (x >>= f) = .ok b ↔ ∃ a, x = .ok a ∧ f a = .ok b := by
  cases x <;> simp

theorem bind_eq_raised {x : Outcome ε α} {f : α → Outcome ε β} {e : Exn} :
    (x >>= f) = .raised e ↔ x = .raised e ∨ ∃ a, x = .ok a ∧ f a = .raised e := by
  cases x <;> simp

/-- An early exit `if c then Error e else …`. -/
theorem exit_eq_ok {c : Prop} [Decidable c] {e : ε} {x : Outcome ε α} {a : α} :
    (if c then .error e else x) = .ok a ↔ ¬ c ∧ x = .ok a := by
  split <;> simp_all

/-- `Result.map_error`. -/
def mapError (f : ε → ε') : Outcome ε α → Outcome ε' α
  | .ok a => .ok a
  | .error e => .error (f e)
  | .raised x => .raised x

@[simp] theorem mapError_ok (f : ε → ε') (a : α) :
    (Outcome.ok a : Outcome ε α).mapError f = .ok a := rfl

theorem mapError_eq_ok {f : ε → ε'} {x : Outcome ε α} {a : α} :
    x.mapError f = .ok a ↔ x = .ok a := by
  cases x <;> simp [mapError]

/-- `Result.get_ok`. -/
def getOk : Outcome ε α → Outcome ε' α
  | .ok a => .ok a
  | .error _ => .raised (.invalidArgument (str "result is Error _"))
  | .raised x => .raised x

@[simp] theorem getOk_ok (a : α) : (Outcome.ok a : Outcome ε α).getOk = (.ok a : Outcome ε' α) := rfl

/-- The call came back with a value or an `Error`: no exception left it. -/
def Returns (x : Outcome ε α) : Prop := ∀ e, x ≠ .raised e

theorem returns_iff {x : Outcome ε α} : x.Returns ↔ (∃ a, x = .ok a) ∨ ∃ e, x = .error e := by
  cases x <;> simp [Returns]

theorem not_returns_iff {x : Outcome ε α} : ¬ x.Returns ↔ ∃ e, x = .raised e := by
  simp [Returns]

@[simp] theorem returns_ok (a : α) : (Outcome.ok a : Outcome ε α).Returns := by simp [Returns]
@[simp] theorem returns_error (e : ε) : (Outcome.error e : Outcome ε α).Returns := by simp [Returns]

theorem returns_bind {x : Outcome ε α} {f : α → Outcome ε β} :
    (x >>= f).Returns ↔ x.Returns ∧ ∀ a, x = .ok a → (f a).Returns := by
  cases x <;> simp [Returns]

theorem returns_mapError {f : ε → ε'} {x : Outcome ε α} : (x.mapError f).Returns ↔ x.Returns := by
  cases x <;> simp [mapError, Returns]

/-- An exception left the call. -/
def Raises (x : Outcome ε α) : Prop := ∃ e, x = .raised e

theorem not_raises_iff {x : Outcome ε α} : ¬ x.Raises ↔ x.Returns := by
  simp [Raises, Returns]

theorem Returns.not_raises {x : Outcome ε α} (h : x.Returns) : ¬ x.Raises := not_raises_iff.2 h

@[simp] theorem raises_ok (a : α) : ¬ (Outcome.ok a : Outcome ε α).Raises := (returns_ok a).not_raises
@[simp] theorem raises_error (e : ε) : ¬ (Outcome.error e : Outcome ε α).Raises :=
  (returns_error e).not_raises

@[simp] theorem raises_raised (x : Exn) : (Outcome.raised x : Outcome ε α).Raises := ⟨x, rfl⟩

theorem raises_bind {x : Outcome ε α} {f : α → Outcome ε β} :
    (x >>= f).Raises ↔ x.Raises ∨ ∃ a, x = .ok a ∧ (f a).Raises := by
  cases x <;> simp [Raises]

theorem raises_exit {c : Prop} [Decidable c] {e : ε} {x : Outcome ε α} :
    (if c then .error e else x : Outcome ε α).Raises ↔ ¬ c ∧ x.Raises := by
  split <;> simp_all

/-- A call that cannot raise only passes its value on. -/
theorem raises_bind_of_returns {x : Outcome ε α} (hx : x.Returns) {f : α → Outcome ε β} :
    (x >>= f).Raises ↔ ∃ a, x = .ok a ∧ (f a).Raises := by
  simp [raises_bind, hx.not_raises]

theorem raises_mapError {f : ε → ε'} {x : Outcome ε α} : (x.mapError f).Raises ↔ x.Raises := by
  cases x <;> simp [mapError, Raises]

/-- `let r = e in k r` for an `e` of result type: an exception leaves at once, an `Error` is a
value that `k` may look at later. -/
def letIn (x : Outcome ε α) (k : Outcome ε α → Outcome ε β) : Outcome ε β :=
  match x with
  | .raised e => .raised e
  | r => k r

theorem letIn_of_returns {x : Outcome ε α} (hx : x.Returns) (k : Outcome ε α → Outcome ε β) :
    x.letIn k = k x := by
  cases x with
  | ok a => rfl
  | error e => rfl
  | raised e => exact absurd rfl (hx e)

theorem letIn_eq_ok {x : Outcome ε α} {k : Outcome ε α → Outcome ε β} {b : β} :
    x.letIn k = .ok b ↔ x.Returns ∧ k x = .ok b := by
  cases x <;> simp [letIn, Returns]

theorem letIn_raised (e : Exn) (k : Outcome ε α → Outcome ε β) :
    (Outcome.raised e : Outcome ε α).letIn k = .raised e := rfl

/-! ### Results that a change of the input leaves alone -/

/-- Where `p` returns a value, it returns the same on every related input. -/
def Respects {σ : Type} (R : σ → σ → Prop) (p : σ → Outcome ε α) : Prop :=
  ∀ ⦃x y⦄, R x y → ∀ a, p x = .ok a → p y = .ok a

section
variable {σ : Type} {R : σ → σ → Prop}

theorem respects_const (r : Outcome ε α) : Respects R fun _ => r := fun _ _ _ _ h => h

theorem Respects.bind {p : σ → Outcome ε α} {q : α → σ → Outcome ε β} (hp : Respects R p)
    (hq : ∀ a, Respects R (q a)) : Respects R fun x => p x >>= fun a => q a x := by
  intro x y hxy b h
  obtain ⟨a, ha, hb⟩ := bind_eq_ok.1 h
  exact bind_eq_ok.2 ⟨a, hp hxy a ha, hq a hxy b hb⟩

/-- A first part that does not look at the input. -/
theorem Respects.const_bind {r : Outcome ε α} {q : α → σ → Outcome ε β} (hq : ∀ a, Respects R (q a)) :
    Respects R fun x => r >>= fun a => q a x :=
  (respects_const r).bind hq

theorem Respects.reflTransGen {p : σ → Outcome ε α} (hp : Respects R p) : Respects (Relation.ReflTransGen R) p := by
  intro x y hxy a ha
  induction hxy with
  | refl => exact ha
  | tail _ hstep ih => exact hp hstep a ih

end

end Outcome

/-! ## `String.sub`, `^` -/

/-- `String.sub s off len`. -/
def sub {ε : Type} (s : Str) (off len : Int) : Outcome ε Str :=
  if 0 ≤ off ∧ 0 ≤ len ∧ off + len ≤ s.length then .ok ((s.drop off.toNat).take len.toNat)
  else .raised (.invalidArgument (str "String.sub / Bytes.sub"))

theorem sub_nat {ε : Type} {s : Str} (off len : Nat) (h : off + len ≤ s.length) :
    (sub s off len : Outcome ε Str) = .ok ((s.drop off).take len) := by
  unfold sub
  rw [if_pos ⟨by omega, by omega, by omega⟩]
  simp

/-- `Sys.max_string_length` on 64 bits. -/
def maxStringLength : Int := 2 ^ 57 - 9

/-- The strings there are. -/
abbrev HeapStr : Type := { s : Str // (s.length : Int) ≤ maxStringLength }

/-- `s ^ t`. -/
def cat {ε : Type} (s t : Str) : Outcome ε Str :=
  if ((s ++ t).length : Int) > maxStringLength then .raised (.invalidArgument (str "Bytes.create")) else .ok (s ++ t)

theorem cat_of_le {ε : Type} {s t : Str} (h : (s.length + t.length : Int) ≤ maxStringLength) :
    (cat s t : Outcome ε Str) = .ok (s ++ t) := by
  unfold cat
  rw [if_neg (by simp only [List.length_append]; push_cast; omega)]

theorem cat_returns {ε : Type} {s t : Str} :
    (cat s t : Outcome ε Str).Returns ↔ (s.length + t.length : Int) ≤ maxStringLength := by
  unfold cat
  rw [List.length_append]
  push_cast
  split
  · rename_i h
    exact iff_of_false (by simp [Outcome.Returns]) (by omega)
  · rename_i h
    exact iff_of_true (Outcome.returns_ok _) (by omega)

/-- `s.[i]`. -/
def get {ε : Type} (s : Str) (i : Nat) : Outcome ε UInt8 :=
  match s[i]? with
  | some c => .ok c
  | none => .raised (.invalidArgument (str "index out of bounds"))

theorem get_nat {ε : Type} {s : Str} {i : Nat} (h : i < s.length) :
    (get s i : Outcome ε UInt8) = .ok (byteAt s i) := by
  simp [get, byteAt, List.getElem?_eq_getElem h]

/-! ## Smart constructors -/

/-- The strings a check accepts. -/
def Checked {ε : Type} (check : Str → Outcome ε Unit) : Type := { s : Str // check s = .ok () }

namespace Checked

variable {ε : Type} {check : Str → Outcome ε Unit}

instance : DecidableEq (Checked check) := inferInstanceAs (DecidableEq { s : Str // check s = .ok () })

/-- `to_string`. -/
def toStr (v : Checked check) : Str := v.1

/-- `of_string`: the string itself, once the check has passed. -/
def ofString (check : Str → Outcome ε Unit) (s : Str) : Outcome ε (Checked check) :=
  match h : check s with
  | .ok () => .ok ⟨s, h⟩
  | .error e => .error e
  | .raised x => .raised x

@[ext] theorem ext {a b : Checked check} (h : a.toStr = b.toStr) : a = b := Subtype.ext h

theorem ofString_eq_ok {s : Str} {v : Checked check} : ofString check s = .ok v ↔ v.toStr = s := by
  unfold ofString
  split
  · rename_i h
    constructor
    · rintro ⟨rfl⟩; rfl
    · rintro rfl; rfl
  · rename_i h
    refine ⟨nofun, ?_⟩
    rintro rfl
    exact absurd (h.symm.trans v.2) nofun
  · rename_i h
    refine ⟨nofun, ?_⟩
    rintro rfl
    exact absurd (h.symm.trans v.2) nofun

@[simp] theorem ofString_toStr (v : Checked check) : ofString check v.toStr = .ok v :=
  ofString_eq_ok.2 rfl

theorem ofString_eq_raised {s : Str} {x : Exn} : ofString check s = .raised x ↔ check s = .raised x := by
  unfold ofString
  split <;> rename_i h <;> simp [h]

theorem ofString_of_error {s : Str} {e : ε} (h : check s = .error e) : ofString check s = .error e := by
  unfold ofString
  split <;> rename_i h' <;> rw [h] at h' <;> cases h'
  rfl

theorem ofString_returns {s : Str} : (ofString check s).Returns ↔ (check s).Returns := by
  simp [Outcome.Returns, ofString_eq_raised]

/-- `of_string_exn`: `Failure` with the printed error where `of_string` returns one. -/
def ofStringExn {ε' : Type} (show_ : ε → Str) (check : Str → Outcome ε Unit) (s : Str) :
    Outcome ε' (Checked check) :=
  match ofString check s with
  | .ok v => .ok v
  | .error e => .raised (.failure (show_ e))
  | .raised x => .raised x

theorem ofStringExn_eq_ok {ε' : Type} {show_ : ε → Str} {s : Str} {v : Checked check} :
    (ofStringExn show_ check s : Outcome ε' _) = .ok v ↔ v.toStr = s := by
  rw [← ofString_eq_ok]
  unfold ofStringExn
  split <;> rename_i h <;> simp [h]

theorem ne_of_ofStringExn_raised {ε' : Type} {show_ : ε → Str} {s : Str} {x : Exn}
    (h : (ofStringExn show_ check s : Outcome ε' _) = .raised x) (v : Checked check) : v.toStr ≠ s := by
  intro hv
  have hok : (ofStringExn show_ check s : Outcome ε' _) = .ok v := ofStringExn_eq_ok.2 hv
  rw [hok] at h
  cases h

theorem ofStringExn_returns {ε' : Type} {show_ : ε → Str} {s : Str} :
    (ofStringExn show_ check s : Outcome ε' _).Returns ↔ ∃ v : Checked check, v.toStr = s := by
  simp only [← ofString_eq_ok]
  unfold ofStringExn
  split <;> rename_i h <;> simp [h, Outcome.Returns]

end Checked
end OCaml
