import Mathlib.Data.List.Basic

/-!
# Programs over a state that an error does not undo

`EStateM ε σ α` runs from a state to a value or an error, and to a state either way. Each lemma says
how one construct can end, so that a proof about a program takes it apart from the front.
-/

namespace FsXfs.StateProg

set_option autoImplicit false

variable {ε σ α β : Type}

/-! ## How a program ends -/

def finalState : EStateM.Result ε σ α → σ
  | .ok _ s => s
  | .error _ s => s

def answer : EStateM.Result ε σ α → Except ε α
  | .ok a _ => .ok a
  | .error e _ => .error e

variable {f : α → EStateM ε σ β} {s s' : σ} {e : ε} {r : EStateM.Result ε σ β}

theorem seq_eq_ok {x : EStateM ε σ α} {b : β} :
    (x >>= f) s = .ok b s' ↔ ∃ a s₁, x s = .ok a s₁ ∧ f a s₁ = .ok b s' := by
  change EStateM.bind x f s = _ ↔ _
  unfold EStateM.bind
  cases h : x s with
  | ok a s₁ =>
    constructor
    · intro hf
      exact ⟨a, s₁, rfl, hf⟩
    · rintro ⟨a', s₂, heq, hf⟩
      cases heq
      exact hf
  | error e s₁ => simp

theorem seq_eq_error {x : EStateM ε σ α} :
    (x >>= f) s = .error e s' ↔
      x s = .error e s' ∨ ∃ a s₁, x s = .ok a s₁ ∧ f a s₁ = .error e s' := by
  change EStateM.bind x f s = _ ↔ _
  unfold EStateM.bind
  cases h : x s with
  | ok a s₁ =>
    constructor
    · intro hf
      exact .inr ⟨a, s₁, rfl, hf⟩
    · rintro (heq | ⟨a', s₂, heq, hf⟩)
      · cases heq
      · cases heq
        exact hf
  | error e' s₁ =>
    constructor
    · intro heq
      cases heq
      exact .inl rfl
    · rintro (heq | ⟨a', s₂, heq, -⟩)
      · cases heq
        rfl
      · cases heq

theorem pure_eq_ok {a b : α} :
    (pure a : EStateM ε σ α) s = .ok b s' ↔ a = b ∧ s = s' := by
  change EStateM.Result.ok a s = _ ↔ _
  rw [EStateM.Result.ok.injEq]

theorem pure_ne_error {a : α} : (pure a : EStateM ε σ α) s ≠ .error e s' := by
  change EStateM.Result.ok a s ≠ _
  simp

theorem get_seq_eq {f : σ → EStateM ε σ β} :
    ((get : EStateM ε σ σ) >>= f) s = r ↔ f s s = r :=
  Iff.rfl

theorem modify_eq_ok {f : σ → σ} {u : Unit} :
    (modify f : EStateM ε σ Unit) s = .ok u s' ↔ f s = s' := by
  change EStateM.Result.ok () (f s) = _ ↔ _
  simp

theorem modify_ne_error {f : σ → σ} :
    (modify f : EStateM ε σ Unit) s ≠ .error e s' := by
  change EStateM.Result.ok () (f s) ≠ _
  simp

theorem modify_seq_eq {g : σ → σ} {f : Unit → EStateM ε σ β} :
    ((modify g : EStateM ε σ Unit) >>= f) s = r ↔ f () (g s) = r :=
  Iff.rfl

end FsXfs.StateProg
