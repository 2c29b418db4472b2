import Mathlib.Control.Lawful
import Mathlib.Tactic.Common

/-!
# Programs in stages

A stage reads and changes a state, or fails and leaves it as it was. A program of stages stops at
the first that fails. `Stages.run` is its meaning as one program, which forgets the state when it
fails; `Stages.left` is the state that it leaves in either case.
-/

/-- A program over states `σ` whose stages may fail with `ε`. -/
inductive Stages (σ ε : Type) : Type 1
  | done
  /-- A stage, and what follows on its result. -/
  | stage {α : Type} (m : StateT σ (Except ε) α) (next : α → Stages σ ε)

namespace Stages

variable {σ ε α : Type} {m : StateT σ (Except ε) α} {next : α → Stages σ ε} {s s' : σ} {a : α}
  {e : ε} {p : Stages σ ε}

/-- The program as a whole. -/
def run : Stages σ ε → StateT σ (Except ε) Unit
  | done => pure ()
  | stage m next => m >>= fun a => (next a).run

/-- The state in which the program stops. -/
def left : Stages σ ε → σ → σ
  | done, s => s
  | stage m next, s =>
    match m s with
    | .ok (a, s') => (next a).left s'
    | .error _ => s

theorem left_ok (h : m s = .ok (a, s')) : (stage m next).left s = (next a).left s' := by
  simp only [left, h]

theorem left_error (h : m s = .error e) : (stage m next).left s = s := by
  simp only [left, h]

theorem run_ok (h : m s = .ok (a, s')) : (stage m next).run s = (next a).run s' := by
  simp [run, Bind.bind, StateT.bind, h, Except.bind]

theorem run_error (h : m s = .error e) : (stage m next).run s = .error e := by
  simp [run, Bind.bind, StateT.bind, h, Except.bind]

/-- **Where a program fails**: in its first stage, or behind it. -/
theorem fails (h : (stage m next).run s = .error e) :
    m s = .error e ∧ (stage m next).left s = s ∨
    ∃ a s', m s = .ok (a, s') ∧ (next a).run s' = .error e ∧
      (stage m next).left s = (next a).left s' := by
  cases hm : m s with
  | error e' =>
    rw [run_error hm] at h
    cases h
    exact .inl ⟨rfl, left_error hm⟩
  | ok r =>
    obtain ⟨a, s'⟩ := r
    rw [run_ok hm] at h
    exact .inr ⟨a, s', rfl, h, left_ok hm⟩

/-- A program that does not fail leaves the state it ends in. -/
theorem left_of_run (h : p.run s = .ok ((), s')) : p.left s = s' := by
  induction p generalizing s with
  | done =>
    cases h
    rfl
  | stage m next ih =>
    cases hm : m s with
    | error e =>
      rw [run_error hm] at h
      cases h
    | ok r =>
      obtain ⟨a, s₁⟩ := r
      rw [run_ok hm] at h
      rw [left_ok hm]
      exact ih a h

/-- The program leaves no state below the one it starts from. -/
def Raises (le : σ → σ → Prop) (p : Stages σ ε) : Prop := ∀ s, le s (p.left s)

theorem Raises.stage {le : σ → σ → Prop} [IsPreorder σ le]
    (hm : ∀ s a s', m s = .ok (a, s') → le s s') (hnext : ∀ a, (next a).Raises le) :
    (stage m next).Raises le := by
  intro s
  cases h : m s with
  | error e =>
    rw [left_error h]
    exact refl s
  | ok r =>
    obtain ⟨a, s'⟩ := r
    rw [left_ok h]
    exact trans_of le (hm s a s' h) (hnext a s')

end Stages
