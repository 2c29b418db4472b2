import Keleusma.Runtime.Hosting
import Keleusma.Runtime.Underflow

/-!
# Overflow

The machine reports that the operand stack is full only when the arena refuses a slot below the
height that the instruction comes to (`step_full`). A call comes to the top of the frame it enters,
and a return to the base of its own. A resume needs a slot for its value (`resume_full`).
-/

namespace Keleusma

variable {F α β : Type} {env : Env F} {s : Vm F}

/-- The arena refuses the operand stack a slot. -/
def operandStackFull : VmError := .outOfArena "operand stack"

theorem callFrame_ne_full : VmError.outOfArena "call frame" ≠ operandStackFull := by
  intro h
  injection h with h
  exact absurd h (by decide)

theorem bind_error {m : Exec F α} {k : α → Exec F β} {e : VmError} (h : (m >>= k) s = .error e) :
    m s = .error e ∨ ∃ a s', m s = .ok (a, s') ∧ k a s' = .error e := by
  rcases hms : m s with e' | ⟨a, s'⟩
  · simp only [Bind.bind, StateT.bind, hms, Except.bind] at h
    cases h
    exact .inl rfl
  · simp only [Bind.bind, StateT.bind, hms, Except.bind] at h
    exact .inr ⟨a, s', rfl, h⟩

/-- A program that takes nothing off the stack fills it only where a slot it needs is refused. -/
theorem Eff.refused {low p q : ℕ} {m : Exec F α} (hm : Eff env low p q m)
    (h : m s = .error operandStackFull) :
    ∃ n < s.stack.length - p + q, env.operandRoom n ≠ true := by
  obtain ⟨n, -, hn, hrefused⟩ := hm.full s _ h rfl
  exact ⟨n, hn, hrefused⟩

theorem execCall_full {idx k : ℕ} (h : execCall env idx k s = .error operandStackFull) :
    idx < env.module.chunks.length ∧ k ≤ env.chunkLocalCount idx ∧
      ∃ n < s.stack.length + (env.chunkLocalCount idx - k), env.operandRoom n ≠ true := by
  unfold execCall at h
  split at h
  · cases h
  next hidx =>
    rcases bind_error h with hstart | ⟨base, s₁, hstart, hrest⟩
    · rw [operandStart_apply] at hstart
      split at hstart <;> cases hstart
    obtain ⟨-, -, rfl⟩ := operandStart_ok hstart
    split at hrest
    · cases hrest
    next hle =>
      refine ⟨not_le.mp hidx, not_lt.mp hle, ?_⟩
      rcases bind_error hrest with h | ⟨_, s₂, -, h⟩
      · have hrefused := Eff.refused (effect_pushAll _ : Eff env 0 _ _ _) h
        rwa [List.length_replicate] at hrefused
      rcases bind_error h with h | ⟨_, s₃, -, h⟩
      · rcases bind_error h with h | ⟨s₃, s₄, hget, h⟩
        · cases h
        · split at h
          · cases h
          · exact absurd (Except.error.inj h) callFrame_ne_full
      · cases h

theorem deliver_full {v : Value F} (h : deliver env v s = .error operandStackFull) :
    env.operandRoom s.stack.length ≠ true := by
  rcases bind_error h with h | ⟨s₁, s₂, hget, h⟩
  · cases h
  cases hget
  split at h
  · rcases bind_error h with h | ⟨_, s₂, -, h⟩
    · cases h
    rcases bind_error h with h | ⟨_, s₃, -, h⟩
    · rcases bind_error h with h | ⟨_, s₃, -, h⟩ <;> cases h
    · cases h
  · rcases bind_error h with h | ⟨_, s₂, -, h⟩
    · rw [push_apply] at h
      split at h
      · cases h
      next hroom => exact hroom
    · cases h

theorem execReturn_full {f : CallFrame} (h : execReturn env f s = .error operandStackFull) :
    ∃ n ≤ f.base, env.operandRoom n ≠ true := by
  rcases bind_error h with h | ⟨v, s₁, -, h⟩
  · rw [pop_apply] at h
    split at h <;> cases h
  rcases bind_error h with h | ⟨_, s₂, -, h⟩
  · cases h
  rcases bind_error h with h | ⟨s₃, s₄, hget, h⟩
  · cases h
  cases hget
  rcases bind_error h with h | ⟨_, s₅, hset, h⟩
  · cases h
  cases hset
  exact ⟨_, List.length_take_le _ _, deliver_full h⟩

theorem execReset_not_full {f : CallFrame} : execReset env f s ≠ .error operandStackFull := by
  intro h
  rcases bind_error h with h | ⟨s₁, s₂, -, h⟩
  · cases h
  dsimp only at h
  by_cases hlt : env.chunkLocalCount f.chunkIdx ≠ 0 ∧
      s₁.stack.length < f.base + env.chunkLocalCount f.chunkIdx
  · rw [if_pos hlt] at h
    cases h
  rw [if_neg hlt] at h
  rcases bind_error h with h | ⟨_, s₃, -, h⟩
  · cases h
  cases hpos : env.streamIp f.chunkIdx with
  | none =>
    rw [hpos] at h
    cases h
  | some pos =>
    rw [hpos] at h
    rcases bind_error h with h | ⟨_, s₄, -, h⟩
    · cases h
    rcases bind_error h with h | ⟨_, s₅, -, h⟩ <;> cases h

theorem execYield_not_full : (execYield : Exec F (Outcome F)) s ≠ .error operandStackFull := by
  intro h
  rcases bind_error h with h | ⟨v, s₁, -, h⟩
  · rw [pop_apply] at h
    split at h <;> cases h
  rcases bind_error h with h | ⟨s₂, s₃, -, h⟩
  · cases h
  split at h
  · cases h
  rcases bind_error h with h | ⟨_, s₄, -, h⟩
  · cases h
  rcases bind_error h with h | ⟨_, s₅, -, h⟩
  · rcases bind_error h with h | ⟨_, s₅, -, h⟩ <;> cases h
  · cases h

theorem execInstr_setLocal_not_full {f : CallFrame} {slot : ℕ} :
    execInstr env f (.setLocal slot) s ≠ .error operandStackFull := by
  intro h
  rcases bind_error h with h | ⟨_, s₁, -, h⟩
  · rcases bind_error h with h | ⟨v, s₂, -, h⟩
    · rw [pop_apply] at h
      split at h <;> cases h
    · rw [writeLocal_apply] at h
      split at h <;> cases h
  · cases h

/-- An instruction other than a call or a return comes to a height at which a slot is refused. -/
theorem execInstr_full {f : CallFrame} {op : Op} (hset : ∀ slot, op ≠ .setLocal slot)
    (hcall : ∀ idx n, op ≠ .call idx n) (hreturn : op ≠ .return)
    (h : execInstr env f op s = .error operandStackFull) :
    ∃ n < s.stack.length - opRequires op + op.results env, env.operandRoom n ≠ true := by
  by_cases hp : op.Plain
  · rw [execInstr_plain hp] at h
    rcases bind_error h with h | ⟨_, s₁, -, h⟩
    · exact Eff.refused (effect_execOp f.chunkIdx f.base op hp hset) h
    · cases h
  have hpop {fault : String} {m : ℕ} (h : popBool fault s = .error operandStackFull) :
      ∃ n < m, env.operandRoom n ≠ true := by
    rcases bind_error h with h | ⟨v, s₁, -, h⟩
    · rw [pop_apply] at h
      split at h <;> cases h
    · split at h <;> cases h
  cases op with
  | ifOp t =>
    rcases bind_error h with h | ⟨b, s₁, -, h⟩
    · exact hpop h
    · split at h
      · cases h
      · rcases bind_error h with h | ⟨_, s₂, -, h⟩ <;> cases h
  | breakIf t =>
    rcases bind_error h with h | ⟨b, s₁, -, h⟩
    · exact hpop h
    · split at h
      · rcases bind_error h with h | ⟨_, s₂, -, h⟩ <;> cases h
      · cases h
  | elseOp t | endLoop t | «break» t => rcases bind_error h with h | ⟨_, s₁, -, h⟩ <;> cases h
  | endIf | loop t | stream => cases h
  | reset => exact absurd h execReset_not_full
  | call idx n => exact absurd rfl (hcall idx n)
  | «return» => exact absurd rfl hreturn
  | yield => exact absurd h execYield_not_full
  | _ => exact absurd trivial hp

/-- **Where a step finds the operand stack full**, the arena has refused a slot below the height
that the instruction of the innermost frame comes to. -/
theorem step_full (h : step env s = .error operandStackFull) :
    ∃ f rest, s.frames = f :: rest ∧ ((env.ops f.chunkIdx)[f.ip]? = none ∨
      ∃ op n, (env.ops f.chunkIdx)[f.ip]? = some op ∧ env.operandRoom n ≠ true ∧
        (op = .return → n ≤ f.base) ∧
        (∀ idx k, op = .call idx k → idx < env.module.chunks.length ∧
          k ≤ env.chunkLocalCount idx ∧ n < s.stack.length + (env.chunkLocalCount idx - k)) ∧
        (op ≠ .return → (∀ idx k, op ≠ .call idx k) →
          n < s.stack.length - opRequires op + op.results env)) := by
  cases hf : s.frames with
  | nil =>
    simp [step, Bind.bind, StateT.bind, get, getThe, MonadStateOf.get, StateT.get, pure,
      Except.pure, Except.bind, hf, throw, throwThe, MonadExceptOf.throw, StateT.lift,
      operandStackFull] at h
  | cons f rest =>
    cases hop : (env.ops f.chunkIdx)[f.ip]? with
    | none => exact ⟨f, rest, rfl, .inl hop⟩
    | some op =>
      have h : execInstr env f op (s.goto f rest (f.ip + 1)) = .error operandStackFull := by
        simpa [step, Bind.bind, StateT.bind, get, getThe, MonadStateOf.get, StateT.get, pure,
          Except.pure, Except.bind, hf, hop, setIp, modify, modifyGet, MonadStateOf.modifyGet,
          StateT.modifyGet, Vm.goto] using h
      refine ⟨f, rest, rfl, .inr ?_⟩
      by_cases hcall : ∃ idx k, op = .call idx k
      · obtain ⟨idx, k, rfl⟩ := hcall
        obtain ⟨hidx, hle, n, hn, hroom⟩ := execCall_full h
        refine ⟨_, n, hop, hroom, by rintro ⟨⟩, ?_, fun _ hne => absurd rfl (hne idx k)⟩
        rintro _ _ ⟨⟩
        exact ⟨hidx, hle, hn⟩
      push Not at hcall
      by_cases hret : op = .return
      · subst hret
        obtain ⟨n, hn, hroom⟩ := execReturn_full h
        exact ⟨_, n, hop, hroom, fun _ => hn, by rintro _ _ ⟨⟩, fun hne => absurd rfl hne⟩
      have hset : ∀ slot, op ≠ .setLocal slot := by
        rintro slot rfl
        exact execInstr_setLocal_not_full h
      obtain ⟨n, hn, hroom⟩ := execInstr_full hset hcall hret h
      exact ⟨op, n, hop, hroom, fun he => absurd he hret, fun idx k he => absurd he (hcall idx k),
        fun _ _ => hn⟩

theorem writeStreamParameter_not_full {input : Value F} :
    writeStreamParameter env input s ≠ .error operandStackFull := by
  intro h
  rcases bind_error h with h | ⟨s₁, s₂, -, h⟩
  · cases h
  cases hres : resumeFrame env s₁.frames with
  | none =>
    rw [hres] at h
    cases h
  | some f =>
    rw [hres] at h
    dsimp only at h
    cases hc : env.chunk? f.chunkIdx with
    | none =>
      rw [hc] at h
      cases h
    | some c =>
      rw [hc] at h
      dsimp only at h
      split at h
      · split at h
        · rw [writeLocal_apply] at h
          split at h <;> cases h
        · cases h
      · cases h

/-- A resume finds the stack full where no slot is granted for its value. -/
theorem resume_full {shared : List UInt8} {input : Value F}
    (h : resume env shared input s = .error operandStackFull) :
    s.frames ≠ [] ∧
      ∃ n < s.stack.length + if s.suspendedAtReset then 0 else 1, env.operandRoom n ≠ true := by
  rcases bind_error h with h | ⟨_, s₁, hshared, h⟩
  · unfold enterShared at h
    split at h <;> cases h
  obtain ⟨hstack₁, hframes₁, -, hsus₁⟩ := enterShared_ok hshared
  rcases bind_error h with h | ⟨s₂, s₃, hget, h⟩
  · cases h
  cases hget
  split at h
  · cases h
  next hsusp =>
    refine ⟨fun hn => hsusp (by simp [hframes₁, hn]), ?_⟩
    have hadmit : Eff env 0 0 0 (admitHostValue env "composite resume value" input) :=
      effect_admitHostValue (by decide) _
    rcases bind_error h with h | ⟨v, s₄, hv, h⟩
    · obtain ⟨n, hn, hroom⟩ := Eff.refused hadmit h
      rw [hstack₁] at hn
      exact ⟨n, by omega, hroom⟩
    obtain ⟨hstack₄, -, -, -⟩ := Eff.sameFrame env hadmit hv
    dsimp only at h
    split at h
    · cases h
    rcases bind_error h with h | ⟨v', s₅, hreg, h⟩
    · obtain ⟨n, hn, hroom⟩ := Eff.refused (effect_inRegistry _ : Eff env 0 0 0 _) h
      rw [hstack₄, hstack₁] at hn
      exact ⟨n, by omega, hroom⟩
    obtain ⟨hstack₅, -, -, -⟩ := Eff.sameFrame env (effect_inRegistry _) hreg
    rcases bind_error h with h | ⟨_, s₆, hparam, h⟩
    · exact absurd h writeStreamParameter_not_full
    obtain ⟨-, -, -, hstack₆⟩ := writeStreamParameter_ok hparam
    have hlen : s₆.stack.length = s.stack.length := by
      rw [← hstack₁, ← hstack₄, ← hstack₅]
      split at hstack₆
      · rw [hstack₆]
      · rw [hstack₆.2, List.length_set]
    split at h
    · cases h
    next hat =>
      rw [push_apply] at h
      split at h
      · cases h
      next hroom =>
        rw [hsus₁] at hat
        rw [if_neg hat]
        exact ⟨_, by omega, hroom⟩

end Keleusma
