import Keleusma.Runtime.Stepping

/-!
# Underflow

The machine reports an underflow of the operand stack only when the instruction it executes does
not find its operands (`step_underflow`). `Op.needs` counts them; it differs from the depth
table at `Return`, for which the table has no entry although the instruction pops its result.
-/

namespace Keleusma

variable {F α β : Type} {env : Env F} {s : Vm F}

/-- The operands that an instruction takes off the stack or looks at. -/
def Op.needs : Op → ℕ
  | .return => 1
  | op => opRequires op

theorem opRequires_le_needs (op : Op) : opRequires op ≤ op.needs := by
  cases op <;> first | exact Nat.le_refl _ | exact Nat.zero_le _

/-- The program reports an underflow only when fewer than `p` operands are there. -/
def UnderflowBelow (p : ℕ) (m : Exec F α) : Prop :=
  ∀ s, m s = .error .stackUnderflow → s.stack.length < p

theorem UnderflowBelow.of_eff {low p q : ℕ} {m : Exec F α} (h : Eff env low p q m) :
    UnderflowBelow p m :=
  fun s he => h.underflow s _ he rfl

theorem underflow_pop : UnderflowBelow 1 (pop : Exec F (Value F)) := by
  intro s h
  rw [pop_apply] at h
  split at h
  next hn => simp [List.getLast?_eq_none_iff.mp hn]
  · cases h

/-- A program underflows where its first part does, when the second never does. -/
theorem UnderflowBelow.bind {p : ℕ} {m : Exec F α} {k : α → Exec F β} (hm : UnderflowBelow p m)
    (hk : ∀ a, UnderflowBelow 0 (k a)) : UnderflowBelow p (m >>= k) := by
  intro s h
  rcases hms : m s with e | ⟨a, s₁⟩
  · simp only [Bind.bind, StateT.bind, hms, Except.bind] at h
    cases h
    exact hm s hms
  · simp only [Bind.bind, StateT.bind, hms, Except.bind] at h
    exact absurd (hk a s₁ h) (Nat.not_lt_zero _)

theorem underflow_modify (f : Vm F → Vm F) : UnderflowBelow 0 (modify f : Exec F PUnit) :=
  fun _ h => by cases h

theorem underflow_pure (a : α) : UnderflowBelow 0 (pure a : Exec F α) := fun _ h => by cases h

theorem underflow_get : UnderflowBelow 0 (get : Exec F (Vm F)) := fun _ h => by cases h

theorem underflow_deliver (v : Value F) : UnderflowBelow 0 (deliver env v) := by
  refine .bind underflow_get fun s => ?_
  split
  · refine .bind (underflow_modify _) fun _ => .bind (.bind underflow_get fun _ => ?_) fun _ => ?_
    · exact underflow_pure _
    · exact underflow_pure _
  · exact .bind (.of_eff (effect_push v : Eff env 0 _ _ _)) fun _ => underflow_pure _

theorem underflow_popBool (fault : String) : UnderflowBelow 1 (popBool fault : Exec F Bool) := by
  refine .bind underflow_pop fun v => ?_
  split
  · exact underflow_pure _
  · exact fun _ h => by cases h

theorem underflow_endOfChunk : UnderflowBelow 0 (endOfChunk env) :=
  .bind underflow_get fun _ => .bind underflow_get fun _ => .bind (underflow_modify _) fun _ =>
    .bind (underflow_modify _) fun _ => underflow_deliver _

theorem underflow_execReset (f : CallFrame) : UnderflowBelow 0 (execReset env f) := by
  refine .bind underflow_get fun s => ?_
  dsimp only
  by_cases hlt : env.chunkLocalCount f.chunkIdx ≠ 0 ∧
      s.stack.length < f.base + env.chunkLocalCount f.chunkIdx
  · rw [if_pos hlt]
    exact fun _ h => by cases h
  · rw [if_neg hlt]
    refine .bind (underflow_modify _) fun _ => ?_
    split
    · exact fun _ h => by cases h
    · exact .bind (underflow_modify _) fun _ => .bind (underflow_modify _) fun _ => underflow_pure _

theorem underflow_execCall (idx n : ℕ) : UnderflowBelow n (execCall env idx n) := by
  unfold execCall
  split
  · exact fun _ h => by cases h
  · refine .bind (fun s h => ?_) fun base => ?_
    · rw [operandStart_apply] at h
      split at h
      · cases h
      · omega
    · split
      · exact fun _ h => by cases h
      · refine .bind (fun s h => ?_) fun _ => .bind ?_ fun _ => underflow_pure _
        · exact absurd ((effect_pushAll _ : Eff env 0 _ _ _).underflow s _ h rfl) (Nat.not_lt_zero _)
        · refine .bind underflow_get fun _ => ?_
          split
          · exact underflow_modify _
          · exact fun _ h => by cases h

theorem underflow_execReturn (f : CallFrame) : UnderflowBelow 1 (execReturn env f) :=
  .bind underflow_pop fun _ => .bind (underflow_modify _) fun _ =>
    .bind underflow_get fun _ => .bind (underflow_modify _) fun _ => underflow_deliver _

theorem underflow_execYield : UnderflowBelow 1 (execYield : Exec F (Outcome F)) := by
  refine .bind underflow_pop fun v => .bind underflow_get fun s => ?_
  split
  · exact fun _ h => by cases h
  · exact .bind (underflow_modify _) fun _ => .bind (.bind underflow_get fun _ =>
      underflow_pure _) fun _ => underflow_pure _

theorem underflow_execOp {op : Op} (hp : op.Plain) (chunkIdx base : ℕ) :
    UnderflowBelow op.needs (execOp env chunkIdx base op) := by
  by_cases hset : ∃ slot, op = .setLocal slot
  · obtain ⟨slot, rfl⟩ := hset
    refine .bind underflow_pop fun v => .bind underflow_get fun s => ?_
    split
    · exact underflow_modify _
    · exact fun _ h => by cases h
  · intro s h
    exact Nat.lt_of_lt_of_le ((effect_execOp chunkIdx base op hp fun slot he =>
      hset ⟨slot, he⟩).underflow s _ h rfl) (opRequires_le_needs op)

theorem underflow_execInstr (f : CallFrame) (op : Op) :
    UnderflowBelow op.needs (execInstr env f op) := by
  by_cases hp : op.Plain
  · rw [execInstr_plain hp]
    exact .bind (underflow_execOp hp _ _) fun _ => underflow_pure _
  cases op with
  | ifOp t =>
    refine .bind (underflow_popBool _) fun b => ?_
    split
    · exact underflow_pure _
    · exact .bind (underflow_modify _) fun _ => underflow_pure _
  | breakIf t =>
    refine .bind (underflow_popBool _) fun b => ?_
    split
    · exact .bind (underflow_modify _) fun _ => underflow_pure _
    · exact underflow_pure _
  | elseOp t => exact .bind (underflow_modify _) fun _ => underflow_pure _
  | endLoop t => exact .bind (underflow_modify _) fun _ => underflow_pure _
  | «break» t => exact .bind (underflow_modify _) fun _ => underflow_pure _
  | endIf => exact underflow_pure _
  | loop t => exact underflow_pure _
  | stream => exact underflow_pure _
  | reset => exact underflow_execReset f
  | call idx n =>
    rw [show (Op.call idx n).needs = n from opRequires_call idx n]
    exact underflow_execCall idx n
  | «return» => exact underflow_execReturn f
  | yield => exact underflow_execYield
  | _ => exact absurd trivial hp

/-- **A step underflows only when the operands of its instruction are missing.** -/
theorem step_underflow (h : step env s = .error .stackUnderflow) :
    ∃ f rest op, s.frames = f :: rest ∧ (env.ops f.chunkIdx)[f.ip]? = some op ∧
      s.stack.length < op.needs := by
  cases hf : s.frames with
  | nil =>
    simp [step, Bind.bind, StateT.bind, get, getThe, MonadStateOf.get, StateT.get, pure,
      Except.pure, Except.bind, hf, throw, throwThe, MonadExceptOf.throw, StateT.lift] at h
  | cons f rest =>
    cases hop : (env.ops f.chunkIdx)[f.ip]? with
    | none =>
      have h : endOfChunk env s = .error .stackUnderflow := by
        simpa [step, Bind.bind, StateT.bind, get, getThe, MonadStateOf.get, StateT.get, pure,
          Except.pure, Except.bind, hf, hop] using h
      exact absurd (underflow_endOfChunk s h) (Nat.not_lt_zero _)
    | some op =>
      have h : execInstr env f op (s.goto f rest (f.ip + 1)) = .error .stackUnderflow := by
        simpa [step, Bind.bind, StateT.bind, get, getThe, MonadStateOf.get, StateT.get, pure,
          Except.pure, Except.bind, hf, hop, setIp, modify, modifyGet, MonadStateOf.modifyGet,
          StateT.modifyGet, Vm.goto] using h
      have hlt := underflow_execInstr f op _ h
      exact ⟨f, rest, op, rfl, hop, hlt⟩

end Keleusma
