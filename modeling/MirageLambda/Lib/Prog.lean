import MirageLambda.Lib.Outcome

/-!
# Calls that change a state

An OCaml function that mutates its surroundings is a `Prog σ ε α`: from the state on entry, how the call
ends and the state on exit. An exception or an `Error` does not undo what was done before it, so the
state is there on every exit. `bind` is `;` and `let*`.

`Leads P Q p` is a triple over the state alone; `Maintains I p` says that `p` keeps the invariant `I`
however it ends.
-/

namespace OCaml

def Prog (σ ε α : Type) : Type := σ → Outcome ε α × σ

namespace Prog

variable {σ ε ε' α β : Type}

def bind (p : Prog σ ε α) (f : α → Prog σ ε β) : Prog σ ε β := fun s =>
  match p s with
  | (.ok a, s) => f a s
  | (.error e, s) => (.error e, s)
  | (.raised x, s) => (.raised x, s)

instance : Monad (Prog σ ε) where
  pure a := fun s => (.ok a, s)
  bind := bind

/-- A call that does not touch the state. -/
def lift (x : Outcome ε α) : Prog σ ε α := fun s => (x, s)

def get : Prog σ ε σ := fun s => (.ok s, s)

def modify (f : σ → σ) : Prog σ ε Unit := fun s => (.ok (), f s)

/-- `match p with Ok a -> Ok a | Error e -> Error (f e)`. -/
def mapError (f : ε → ε') (p : Prog σ ε α) : Prog σ ε' α := fun s => ((p s).1.mapError f, (p s).2)

@[simp] theorem lift_apply (x : Outcome ε α) (s : σ) : lift x s = (x, s) := rfl

@[simp] theorem get_bind (f : σ → Prog σ ε β) (s : σ) : (get >>= f) s = f s s := rfl

@[simp] theorem modify_bind (g : σ → σ) (f : Unit → Prog σ ε β) (s : σ) : (modify g >>= f) s = f () (g s) := rfl

@[simp] theorem lift_ok_bind (a : α) (f : α → Prog σ ε β) (s : σ) : (lift (.ok a) >>= f) s = f a s := rfl

@[simp] theorem lift_raised_bind (x : Exn) (f : α → Prog σ ε β) (s : σ) :
    ((lift (.raised x) : Prog σ ε α) >>= f) s = (.raised x, s) := rfl

theorem bind_of_ok {p : Prog σ ε α} {f : α → Prog σ ε β} {s s' : σ} {a : α} (h : p s = (.ok a, s')) :
    (p >>= f) s = f a s' := by
  show bind p f s = f a s'
  simp only [bind, h]

theorem bind_of_error {p : Prog σ ε α} {f : α → Prog σ ε β} {s s' : σ} {e : ε} (h : p s = (.error e, s')) :
    (p >>= f) s = (.error e, s') := by
  show bind p f s = _
  simp only [bind, h]

theorem bind_of_raised {p : Prog σ ε α} {f : α → Prog σ ε β} {s s' : σ} {x : Exn} (h : p s = (.raised x, s')) :
    (p >>= f) s = (.raised x, s') := by
  show bind p f s = _
  simp only [bind, h]

/-- A sequence that returns: both parts do. -/
theorem bind_eq_ok {p : Prog σ ε α} {f : α → Prog σ ε β} {s s' : σ} {b : β} (h : (p >>= f) s = (.ok b, s')) :
    ∃ a s₁, p s = (.ok a, s₁) ∧ f a s₁ = (.ok b, s') := by
  rcases hp : p s with ⟨r, s₁⟩
  cases r with
  | ok a =>
    rw [bind_of_ok hp] at h
    exact ⟨a, s₁, rfl, h⟩
  | error e =>
    rw [bind_of_error hp] at h
    cases h
  | raised x =>
    rw [bind_of_raised hp] at h
    cases h

/-! ## Invariants -/

/-- From a state with `P` the call leaves one with `Q`, however it ends. -/
def Leads (P Q : σ → Prop) (p : Prog σ ε α) : Prop := ∀ s, P s → Q (p s).2

def Maintains (I : σ → Prop) (p : Prog σ ε α) : Prop := Leads I I p

theorem maintains_pure (I : σ → Prop) (a : α) : Maintains I (Pure.pure a : Prog σ ε α) := fun _ hs => hs

theorem maintains_lift (I : σ → Prop) (x : Outcome ε α) : Maintains I (lift x : Prog σ ε α) := fun _ hs => hs

/-- The second part may rely on what the first established. -/
theorem Leads.bind {P Q : σ → Prop} {p : Prog σ ε α} {f : α → Prog σ ε β} (hp : Leads P Q p)
    (hf : ∀ s a s', P s → p s = (.ok a, s') → Q (f a s').2) : Leads P Q (p >>= f) := by
  intro s hs
  have hs' := hp s hs
  rcases h : p s with ⟨r, s'⟩
  rw [h] at hs'
  cases r with
  | ok a =>
    rw [bind_of_ok h]
    exact hf s a s' hs h
  | error e =>
    rw [bind_of_error h]
    exact hs'
  | raised x =>
    rw [bind_of_raised h]
    exact hs'

theorem Maintains.bind {I : σ → Prop} {p : Prog σ ε α} {f : α → Prog σ ε β} (hp : Maintains I p)
    (hf : ∀ a, Maintains I (f a)) : Maintains I (p >>= f) := by
  refine Leads.bind hp fun s a s' hs h => hf a s' ?_
  have hs' := hp s hs
  rwa [h] at hs'

/-! ## Keeping a log beside the state -/

section
variable {τ : Type}

/-- A call that leaves the log alone. -/
def withLog (p : Prog σ ε α) : Prog (σ × τ) ε α := fun s => ((p s.1).1, (p s.1).2, s.2)

/-- Without its log, `p` is `q`. -/
def Erases (p : Prog (σ × τ) ε α) (q : Prog σ ε α) : Prop := ∀ s, ((p s).1, (p s).2.1) = q s.1

theorem erases_withLog (p : Prog σ ε α) : Erases (withLog p : Prog (σ × τ) ε α) p := fun _ => rfl

theorem erases_pure (a : α) : Erases (Pure.pure a : Prog (σ × τ) ε α) (Pure.pure a) := fun _ => rfl

theorem erases_lift (x : Outcome ε α) : Erases (lift x : Prog (σ × τ) ε α) (lift x) := fun _ => rfl

theorem Erases.bind {p : Prog (σ × τ) ε α} {q : Prog σ ε α} (h : Erases p q) {f : α → Prog (σ × τ) ε β}
    {g : α → Prog σ ε β} (hf : ∀ a, Erases (f a) (g a)) : Erases (p >>= f) (q >>= g) := by
  intro s
  have hs := h s
  rcases hp : p s with ⟨r, s'⟩
  rw [hp] at hs
  cases r with
  | ok a =>
    rw [bind_of_ok hp, bind_of_ok hs.symm]
    exact hf a s'
  | error e => rw [bind_of_error hp, bind_of_error hs.symm]
  | raised x => rw [bind_of_raised hp, bind_of_raised hs.symm]

/-- What a call does not change, it maintains whatever the log says. -/
theorem maintains_withLog {I : σ × τ → Prop} {p : Prog σ ε α} (h : ∀ s l, I (s, l) → I ((p s).2, l)) :
    Maintains I (withLog p : Prog (σ × τ) ε α) := fun s hs => h s.1 s.2 hs

end

end Prog
end OCaml
