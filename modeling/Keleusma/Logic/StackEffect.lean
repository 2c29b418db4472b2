import Mathlib.Data.List.Basic
import Mathlib.Data.Nat.Notation

/-!
# Stack effects of programs

A program in a state monad over errors, whose state holds a stack with its bottom at index zero,
has the effect `p → q` when it needs the top `p` entries of the stack, leaves `q` entries in their
place, and touches nothing below them. `Effect` says so of a program together with a part of the
state that it keeps. It also says what the program may look at: of the entries below the top `p`
only those under the index `low`. And it says why the program fails for want of entries or of
room: it reports an underflow only when fewer than `p` entries are there, and a full stack only
when it is refused an entry below the height it ends at. The effect of a program follows from
those of its parts (`Effect.bind`).
-/

namespace StackEffect

variable {S V K K' E α β : Type}

/-- What an effect speaks of. -/
structure Observer (S V K E : Type) where
  stack : S → List V
  /-- The state without its stack. -/
  rest : S → S
  /-- The part of the state that programs keep. -/
  keep : S → K
  underflow : E → Prop
  full : E → Prop
  /-- There is room for one more entry on a stack of the given height. -/
  granted : ℕ → Prop

variable {I : Observer S V K E} {p q p₁ q₁ low low' high high' : ℕ} {s t u : S}

/-- Two states that differ at most in the stack entries from `low` up to `high`. -/
structure Observer.Agree (I : Observer S V K E) (low high : ℕ) (s t : S) : Prop where
  rest : I.rest s = I.rest t
  length : (I.stack s).length = (I.stack t).length
  entry : ∀ i, i < low ∨ high ≤ i → (I.stack s)[i]? = (I.stack t)[i]?

/-- The program takes `p` entries off the stack, puts `q` in their place, and keeps everything
below them and the kept part of the state. The entries between `low` and those it takes do not
matter to it. -/
structure Effect (I : Observer S V K E) (low p q : ℕ) (m : StateT S (Except E) α) : Prop where
  ok : ∀ s a s', m s = .ok (a, s') →
    p ≤ (I.stack s).length ∧ (I.stack s').length = (I.stack s).length - p + q ∧
    (I.stack s').take ((I.stack s).length - p) = (I.stack s).take ((I.stack s).length - p) ∧
    I.keep s' = I.keep s
  underflow : ∀ s e, m s = .error e → I.underflow e → (I.stack s).length < p
  reads : ∀ s t a s' high, high ≤ (I.stack s).length - p → I.Agree low high s t →
    m s = .ok (a, s') → ∃ t', m t = .ok (a, t') ∧ I.Agree low high s' t'
  full : ∀ s e, m s = .error e → I.full e →
    ∃ n, (I.stack s).length - p ≤ n ∧ n < (I.stack s).length - p + q ∧ ¬ I.granted n

/-- A program without an effect leaves the stack as it is. -/
theorem Effect.stack_eq {m : StateT S (Except E) α} (hm : Effect I low 0 0 m)
    {s s' : S} {a : α} (h : m s = .ok (a, s')) : I.stack s' = I.stack s ∧ I.keep s' = I.keep s := by
  obtain ⟨-, hl, ht, hk⟩ := hm.ok s a s' h
  refine ⟨?_, hk⟩
  have hl' : (I.stack s').length ≤ (I.stack s).length - 0 := by omega
  rwa [List.take_of_length_le hl', Nat.sub_zero, List.take_length] at ht

/-- A program may be granted sight of more of the stack. -/
theorem Effect.mono (hlow : low ≤ low') {m : StateT S (Except E) α} (hm : Effect I low p q m) :
    Effect I low' p q m where
  ok := hm.ok
  underflow := hm.underflow
  reads s t a s' high hhigh hst h := by
    have hst₀ : I.Agree low high s t :=
      ⟨hst.rest, hst.length, fun i hi => hst.entry i (hi.imp_left fun hl => Nat.lt_of_lt_of_le hl hlow)⟩
    obtain ⟨t', ht, hst'⟩ := hm.reads s t a s' high hhigh hst₀ h
    refine ⟨t', ht, hst'.rest, hst'.length, fun i hi => ?_⟩
    by_cases hin : high ≤ i
    · exact hst'.entry i (.inr hin)
    · -- below `high` the program leaves both stacks alone
      have hi₀ : i < low' := by omega
      have hs := congrArg (·[i]?) (hm.ok s a s' h).2.2.1
      have ht := congrArg (·[i]?) (hm.ok t a t' ht).2.2.1
      have hlen := hst.length
      have hp := (hm.ok s a s' h).1
      simp only [List.getElem?_take, show i < (I.stack s).length - p by omega,
        show i < (I.stack t).length - p by omega, if_true] at hs ht
      rw [hs, ht]
      exact hst.entry i (.inl hi₀)
  full := hm.full

/-- A program keeps what is computed from the part it keeps. -/
theorem Effect.forget (g : K → K') {m : StateT S (Except E) α} (hm : Effect I low p q m) :
    Effect { I with keep := fun s => g (I.keep s) } low p q m where
  ok s a s' h := by
    obtain ⟨hp, hl, ht, hk⟩ := hm.ok s a s' h
    exact ⟨hp, hl, ht, congrArg g hk⟩
  underflow := hm.underflow
  reads s t a s' high hhigh hst h := by
    obtain ⟨t', ht, hst'⟩ := hm.reads s t a s' high hhigh ⟨hst.rest, hst.length, hst.entry⟩ h
    exact ⟨t', ht, hst'.rest, hst'.length, hst'.entry⟩
  full := hm.full

theorem Effect.pure (a : α) : Effect I low 0 0 (pure a : StateT S (Except E) α) where
  ok _ _ _ h := by cases h; exact ⟨Nat.zero_le _, by omega, rfl, rfl⟩
  underflow _ _ h := by cases h
  reads _ t _ _ _ _ hst h := by cases h; exact ⟨t, rfl, hst⟩
  full _ _ h := by cases h

/-- A change that the stack takes no part in. -/
theorem Effect.modify (f : S → S) (hs : ∀ s, I.stack (f s) = I.stack s)
    (hk : ∀ s, I.keep (f s) = I.keep s) (hr : ∀ s, I.rest (f s) = I.rest (f (I.rest s))) :
    Effect I low 0 0 (modify f : StateT S (Except E) PUnit) where
  ok s _ _ h := by cases h; exact ⟨Nat.zero_le _, by rw [hs]; omega, by rw [hs], hk s⟩
  underflow _ _ h := by cases h
  reads s t _ _ high _ hst h := by
    cases h
    refine ⟨f t, rfl, by rw [hr s, hr t, hst.rest], by rw [hs, hs]; exact hst.length, ?_⟩
    rw [hs, hs]
    exact hst.entry
  full _ _ h := by cases h

/-- A program that fails has every effect. -/
theorem Effect.throw (e : E) (hu : ¬ I.underflow e) (hf : ¬ I.full e) :
    Effect I low p q (throw e : StateT S (Except E) α) where
  ok _ _ _ h := by cases h
  underflow _ _ h he := by cases h; exact absurd he hu
  reads _ _ _ _ _ _ _ h := by cases h
  full _ _ h he := by cases h; exact absurd he hf

/-- Looking at the state, but not at its stack. -/
theorem Effect.get_bind {k : S → StateT S (Except E) α} (hrest : ∀ s, k s = k (I.rest s))
    (hk : ∀ s, Effect I low p q (k s)) : Effect I low p q (get >>= k) where
  ok s := (hk s).ok s
  underflow s := (hk s).underflow s
  reads s t a s' high hhigh hst h := by
    have hks : k s = k t := by rw [hrest s, hrest t, hst.rest]
    obtain ⟨t', ht, hst'⟩ := (hk s).reads s t a s' high hhigh hst h
    exact ⟨t', by rw [hks] at ht; exact ht, hst'⟩
  full s := (hk s).full s

theorem run_bind_error {m : StateT S (Except E) α} {k : α → StateT S (Except E) β} {e : E}
    (h : m s = .error e) : (m >>= k) s = .error e := by
  simp [Bind.bind, StateT.bind, h, Except.bind]

theorem run_bind_ok {m : StateT S (Except E) α} {k : α → StateT S (Except E) β} {a : α}
    (h : m s = .ok (a, t)) : (m >>= k) s = k a t := by
  simp [Bind.bind, StateT.bind, h, Except.bind]

/-- **Effects compose.** The second program first consumes what the first one left. The first
leaves nothing or the second ends no lower than it began, so that the stack is never higher than
at the start and at the end. -/
theorem Effect.bind {m : StateT S (Except E) α} {k : α → StateT S (Except E) β} (p₂ q₂ : ℕ)
    (hp : p₁ + (p₂ - q₁) = p) (hq : q₂ + (q₁ - p₂) = q) (hrise : q₁ = 0 ∨ p₂ ≤ q₂)
    (hm : Effect I low p₁ q₁ m) (hk : ∀ a, Effect I low p₂ q₂ (k a)) :
    Effect I low p q (m >>= k) where
  ok s b s' h := by
    rcases hms : m s with e | ⟨a, s₁⟩
    · rw [run_bind_error hms] at h
      cases h
    · rw [run_bind_ok hms] at h
      obtain ⟨hp₁, hl₁, ht₁, hk₁⟩ := hm.ok s a s₁ hms
      obtain ⟨hp₂, hl₂, ht₂, hk₂⟩ := (hk a).ok s₁ b s' h
      refine ⟨by omega, by omega, ?_, hk₂.trans hk₁⟩
      have h₂ : (I.stack s).length - p ≤ (I.stack s₁).length - p₂ := by omega
      have h₁ : (I.stack s).length - p ≤ (I.stack s).length - p₁ := by omega
      rw [← Nat.min_eq_left h₂, ← List.take_take, ht₂, List.take_take, Nat.min_eq_left h₂,
        ← Nat.min_eq_left h₁, ← List.take_take, ht₁, List.take_take, Nat.min_eq_left h₁]
  underflow s e h he := by
    rcases hms : m s with e₁ | ⟨a, s₁⟩
    · rw [run_bind_error hms] at h
      cases h
      have := hm.underflow s e hms he
      omega
    · rw [run_bind_ok hms] at h
      obtain ⟨hp₁, hl₁, -, -⟩ := hm.ok s a s₁ hms
      have := (hk a).underflow s₁ e h he
      omega
  reads s t b s' high hhigh hst h := by
    rcases hms : m s with e | ⟨a, s₁⟩
    · rw [run_bind_error hms] at h
      cases h
    · rw [run_bind_ok hms] at h
      obtain ⟨hp₁, hl₁, -, -⟩ := hm.ok s a s₁ hms
      obtain ⟨t₁, hmt, hst₁⟩ := hm.reads s t a s₁ high (by omega) hst hms
      obtain ⟨t', hkt, hst'⟩ := (hk a).reads s₁ t₁ b s' high (by omega) hst₁ h
      exact ⟨t', by rw [run_bind_ok hmt]; exact hkt, hst'⟩
  full s e h he := by
    rcases hms : m s with e₁ | ⟨a, s₁⟩
    · rw [run_bind_error hms] at h
      cases h
      obtain ⟨n, hlo, hhi, hn⟩ := hm.full s e hms he
      exact ⟨n, by omega, by omega, hn⟩
    · rw [run_bind_ok hms] at h
      obtain ⟨hp₁, hl₁, -, -⟩ := hm.ok s a s₁ hms
      obtain ⟨n, hlo, hhi, hn⟩ := (hk a).full s₁ e h he
      exact ⟨n, by omega, by omega, hn⟩

/-- A program that leaves the stack alone may run first. -/
theorem Effect.bind_neutral {m : StateT S (Except E) α} {k : α → StateT S (Except E) β}
    (hm : Effect I low 0 0 m) (hk : ∀ a, Effect I low p q (k a)) : Effect I low p q (m >>= k) :=
  hm.bind p q (Nat.zero_add p) (by rw [Nat.zero_sub, Nat.add_zero]) (.inl rfl) hk

theorem Effect.mapM {γ : Type} {f : γ → StateT S (Except E) α}
    (hf : ∀ x, Effect I low 0 0 (f x)) (xs : List γ) : Effect I low 0 0 (xs.mapM f) := by
  induction xs with
  | nil => exact Effect.pure []
  | cons x xs ih =>
    rw [List.mapM_cons]
    exact (hf x).bind_neutral fun _ => ih.bind_neutral fun _ => .pure _

end StackEffect
