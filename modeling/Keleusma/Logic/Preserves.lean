import Mathlib.Order.Defs.Unbundled

/-!
# What programs preserve and raise

A program in a state monad over errors preserves a relation on states when it leads from every
state to related ones only (`Preserves`). Of a preorder it is enough to look at the parts of the
program. It raises only errors of a kind when every error it ends in, from any state, is of that
kind (`Raises`), which too follows from its parts, whatever the states between them.
-/

namespace StackEffect

variable {S E α β : Type} {R : S → S → Prop} {P : E → Prop}

/-! ## Relations on states -/

/-- The program leads from a state to a related one. -/
def Preserves (R : S → S → Prop) (m : StateT S (Except E) α) : Prop :=
  ∀ ⦃s a s'⦄, m s = .ok (a, s') → R s s'

namespace Preserves

theorem throw (e : E) : Preserves R (throw e : StateT S (Except E) α) := fun _ _ _ h => by cases h

theorem modify {f : S → S} (hf : ∀ s, R s (f s)) :
    Preserves R (modify f : StateT S (Except E) PUnit) := by
  intro s a s' h
  cases h
  exact hf s

variable [IsPreorder S R]

theorem pure (a : α) : Preserves R (pure a : StateT S (Except E) α) := by
  intro s a s' h
  cases h
  exact refl_of R s

theorem get : Preserves R (get : StateT S (Except E) S) := by
  intro s a s' h
  cases h
  exact refl_of R s

theorem bind {m : StateT S (Except E) α} {k : α → StateT S (Except E) β} (hm : Preserves R m)
    (hk : ∀ a, Preserves R (k a)) : Preserves R (m >>= k) := by
  intro s b s' h
  rcases hms : m s with e | ⟨a, s₁⟩
  · have hb : (m >>= k) s = .error e := by simp [Bind.bind, StateT.bind, hms, Except.bind]
    rw [hb] at h
    cases h
  · have hb : (m >>= k) s = k a s₁ := by simp [Bind.bind, StateT.bind, hms, Except.bind]
    rw [hb] at h
    exact trans_of R (hm hms) (hk a h)

/-- What follows a `get` knows the state it starts from. -/
theorem bind_get {k : S → StateT S (Except E) β}
    (hk : ∀ s b s', k s s = .ok (b, s') → R s s') :
    Preserves R (MonadState.get >>= k : StateT S (Except E) β) :=
  fun s b s' h => hk s b s' h

end Preserves

/-! ## Errors -/

/-- Every error of the program satisfies `P`. -/
def Raises (P : E → Prop) (m : StateT S (Except E) α) : Prop := ∀ s e, m s = .error e → P e

theorem Raises.pure (a : α) : Raises P (pure a : StateT S (Except E) α) :=
  fun _ _ h => by cases h

theorem Raises.get : Raises P (get : StateT S (Except E) S) := fun _ _ h => by cases h

theorem Raises.modify (f : S → S) : Raises P (modify f : StateT S (Except E) PUnit) :=
  fun _ _ h => by cases h

theorem Raises.throw {e : E} (he : P e) : Raises P (throw e : StateT S (Except E) α) := by
  intro s e' h
  cases h
  exact he

/-- A program raises what its first part raises, or what the rest does. -/
theorem Raises.bind {m : StateT S (Except E) α} {k : α → StateT S (Except E) β}
    (hm : Raises P m) (hk : ∀ a, Raises P (k a)) : Raises P (m >>= k) := by
  intro s e h
  rcases hms : m s with e₁ | ⟨a, s₁⟩
  · have hb : (m >>= k) s = .error e₁ := by simp [Bind.bind, StateT.bind, hms, Except.bind]
    rw [hb] at h
    cases h
    exact hm s e hms
  · have hb : (m >>= k) s = k a s₁ := by simp [Bind.bind, StateT.bind, hms, Except.bind]
    rw [hb] at h
    exact hk a s₁ e h

end StackEffect
