import Keleusma.Logic.StackEffect
import Keleusma.Runtime.Machine

/-!
# Stack effects of the primitive operations

The effect of a program of the machine says how many operands it takes off the stack and how many
values it leaves in their place; the call frames stay as they are. The handlers of the
instructions are built from the primitive operations, and so are their effects.
-/

namespace Keleusma

open StackEffect

variable {F α : Type} {env : Env F} {low p q : ℕ}

/-- What the effects of the machine's programs speak of: the operand stack, the frames a program
keeps, and the room the arena has for operands. -/
abbrev observed (env : Env F) : Observer (Vm F) (Value F)
    (List CallFrame × Bool × Bool) VmError where
  stack := Vm.stack
  rest s := { s with stack := [] }
  keep s := (s.frames, s.started, s.suspendedAtReset)
  underflow := (· = .stackUnderflow)
  full := (· = .outOfArena "operand stack")
  granted n := env.operandRoom n = true

/-- The effect of a program of the machine. Of the stack below the operands it takes it looks at
most at the slots under `low`. -/
abbrev Eff (env : Env F) (low p q : ℕ) (m : Exec F α) : Prop := Effect (observed env) low p q m

/-! ## Primitives -/

theorem pop_apply (s : Vm F) : pop s = match s.stack.getLast? with
    | none => .error .stackUnderflow
    | some v => .ok (v, { s with stack := s.stack.dropLast }) := by
  unfold pop
  simp only [bind, StateT.bind, get, getThe, MonadStateOf.get, StateT.get, Except.bind, pure,
    Except.pure]
  cases s.stack.getLast? <;> rfl

theorem peekOperand_apply (s : Vm F) : peekOperand s = match s.stack.getLast? with
    | none => .error .stackUnderflow
    | some v => .ok (v, s) := by
  unfold peekOperand
  simp only [bind, StateT.bind, get, getThe, MonadStateOf.get, StateT.get, Except.bind, pure,
    Except.pure]
  cases s.stack.getLast? <;> rfl

theorem push_apply (v : Value F) (s : Vm F) : push env v s =
    if env.operandRoom s.stack.length then .ok ((), { s with stack := s.stack ++ [v] })
    else .error (.outOfArena "operand stack") := by
  change (if env.operandRoom s.stack.length = true then _ else _ : Exec F Unit) s = _
  split <;> rfl

theorem operandStart_apply (n : ℕ) (s : Vm F) : operandStart n s =
    if n ≤ s.stack.length then .ok (s.stack.length - n, s) else .error .stackUnderflow := by
  change (if n ≤ s.stack.length then _ else _ : Exec F ℕ) s = _
  split <;> rfl

theorem drain_apply (n : ℕ) (s : Vm F) : drain n s =
    if n ≤ s.stack.length then
      .ok (s.stack.drop (s.stack.length - n),
        { s with stack := s.stack.take (s.stack.length - n) })
    else .error .stackUnderflow := by
  unfold drain
  simp only [bind, StateT.bind, operandStart_apply]
  split <;> rfl

theorem readLocal_apply (i : ℕ) (s : Vm F) : readLocal i s = match s.stack[i]? with
    | some v => .ok (v, s)
    | none => .error (.panicked "index out of bounds") := by
  unfold readLocal
  simp only [bind, StateT.bind, get, getThe, MonadStateOf.get, StateT.get, Except.bind, pure,
    Except.pure]
  cases s.stack[i]? <;> rfl

theorem writeLocal_apply (i : ℕ) (v : Value F) (s : Vm F) : writeLocal i v s =
    if i < s.stack.length then .ok ((), { s with stack := s.stack.set i v })
    else .error (.panicked "index out of bounds") := by
  change (if i < s.stack.length then _ else _ : Exec F Unit) s = _
  split <;> rfl

theorem resolveBody_apply (body : Handle) (s : Vm F) : resolveBody body s =
    if s.arena.addrIsLive body.addr body.epoch = true then
      .ok (s.arena.read body.addr body.len, s)
    else .error staleArenaBody := by
  unfold resolveBody Arena.resolve
  simp only [bind, StateT.bind, get, getThe, MonadStateOf.get, StateT.get, Except.bind, pure,
    Except.pure]
  split <;> rfl

/-- The top of a stack that agrees from its top entry on. -/
theorem agree_getLast? {s t : Vm F} {high : ℕ} (h : (observed env).Agree low high s t)
    (hhigh : high ≤ s.stack.length - 1) : t.stack.getLast? = s.stack.getLast? := by
  rw [List.getLast?_eq_getElem?, List.getLast?_eq_getElem?, ← h.length]
  exact (h.entry _ (.inr hhigh)).symm

/-- Two states that agree still do so when their stacks are changed alike. -/
theorem agree_setStack {s t : Vm F} {high : ℕ} (h : (observed env).Agree low high s t)
    {l r : List (Value F)} (hlen : l.length = r.length)
    (hentry : ∀ i, i < low ∨ high ≤ i → l[i]? = r[i]?) :
    (observed env).Agree low high { s with stack := l } { t with stack := r } :=
  ⟨h.rest, hlen, hentry⟩

theorem agree_take {s t : Vm F} {high : ℕ} (h : (observed env).Agree low high s t) (n : ℕ) :
    (observed env).Agree low high { s with stack := s.stack.take n }
      { t with stack := t.stack.take n } := by
  have hl := h.length
  refine agree_setStack h (by simp [hl]) fun i hi => ?_
  rw [List.getElem?_take, List.getElem?_take, h.entry i hi]

theorem effect_pop : Eff env low 1 0 (pop : Exec F (Value F)) where
  ok s v s' h := by
    rw [pop_apply] at h
    split at h
    · cases h
    next w hw =>
      cases h
      have hpos : 0 < s.stack.length := List.length_pos_iff.mpr fun he => by simp [he] at hw
      refine ⟨hpos, by simp, ?_, rfl⟩
      simp [List.dropLast_eq_take, List.take_take]
  underflow s e h _ := by
    rw [pop_apply] at h
    split at h
    next hn => simp [List.getLast?_eq_none_iff.mp hn]
    · cases h
  reads s t v s' high hhigh hst h := by
    rw [pop_apply] at h
    split at h
    · cases h
    next w hw =>
      cases h
      rw [pop_apply, agree_getLast? hst hhigh, hw]
      refine ⟨_, rfl, ?_⟩
      rw [List.dropLast_eq_take, List.dropLast_eq_take, ← hst.length]
      exact agree_take hst _
  full s e h he := by
    rw [pop_apply] at h
    subst he
    split at h <;> cases h

/-- Looking at the top needs an operand and leaves it. -/
theorem effect_peekOperand : Eff env low 1 1 (peekOperand : Exec F (Value F)) where
  ok s v s' h := by
    rw [peekOperand_apply] at h
    split at h
    · cases h
    next w hw =>
      cases h
      have hpos : 0 < s.stack.length := List.length_pos_iff.mpr fun he => by simp [he] at hw
      exact ⟨hpos, (Nat.sub_add_cancel hpos).symm, rfl, rfl⟩
  underflow s e h _ := by
    rw [peekOperand_apply] at h
    split at h
    next hn => simp [List.getLast?_eq_none_iff.mp hn]
    · cases h
  reads s t v s' high hhigh hst h := by
    rw [peekOperand_apply] at h
    split at h
    · cases h
    next w hw =>
      cases h
      rw [peekOperand_apply, agree_getLast? hst hhigh, hw]
      exact ⟨t, rfl, hst⟩
  full s e h he := by
    rw [peekOperand_apply] at h
    subst he
    split at h <;> cases h

theorem effect_push (v : Value F) : Eff env low 0 1 (push env v) where
  ok s _ s' h := by
    rw [push_apply] at h
    split at h
    · cases h
      exact ⟨Nat.zero_le _, by simp, by simp, rfl⟩
    · cases h
  underflow s e h he := by
    rw [push_apply] at h
    subst he
    split at h <;> cases h
  reads s t _ s' high hhigh hst h := by
    have hlen : s.stack.length = t.stack.length := hst.length
    rw [push_apply] at h
    split at h
    next hroom =>
      cases h
      rw [push_apply, ← hlen, if_pos hroom]
      refine ⟨_, rfl, agree_setStack hst (by simp [hlen]) fun i hi => ?_⟩
      rw [List.getElem?_append, List.getElem?_append, ← hlen]
      simp only [show s.stack[i]? = t.stack[i]? from hst.entry i hi]
    · cases h
  full s e h _ := by
    rw [push_apply] at h
    split at h
    · cases h
    next hroom => exact ⟨s.stack.length, Nat.le_refl _, Nat.lt_succ_self _, hroom⟩

theorem effect_pushAll (vs : List (Value F)) : Eff env low 0 vs.length (pushAll env vs) := by
  induction vs with
  | nil => exact .pure ()
  | cons v vs ih =>
    exact (effect_push v).bind 0 vs.length rfl rfl (.inr (Nat.zero_le _)) fun _ => ih

theorem effect_drain (n : ℕ) : Eff env low n 0 (drain n : Exec F (List (Value F))) where
  ok s vs s' h := by
    rw [drain_apply] at h
    split at h
    next hn =>
      cases h
      refine ⟨hn, by simp, ?_, rfl⟩
      simp [List.take_take]
    · cases h
  underflow s e h _ := by
    rw [drain_apply] at h
    split at h
    · cases h
    next hn => exact Nat.lt_of_not_le hn
  reads s t vs s' high hhigh hst h := by
    have hlen : s.stack.length = t.stack.length := hst.length
    rw [drain_apply] at h
    split at h
    next hn =>
      cases h
      have hh : high ≤ s.stack.length - n := hhigh
      rw [drain_apply, ← hlen, if_pos hn]
      have hdrop : t.stack.drop (s.stack.length - n) = s.stack.drop (s.stack.length - n) := by
        ext1 i
        rw [List.getElem?_drop, List.getElem?_drop]
        exact (hst.entry _ (.inr (by omega))).symm
      exact ⟨_, by rw [hdrop], agree_take hst _⟩
    · cases h
  full s e h he := by
    rw [drain_apply] at h
    subst he
    split at h <;> cases h

/-- Reading a local slot, which lies among those the program may look at. -/
theorem effect_readLocal {i : ℕ} (hi : i < low) :
    Eff env low 0 0 (readLocal i : Exec F (Value F)) where
  ok s v s' h := by
    rw [readLocal_apply] at h
    split at h <;> cases h
    exact ⟨Nat.zero_le _, rfl, rfl, rfl⟩
  underflow s e h he := by
    rw [readLocal_apply] at h
    subst he
    split at h <;> cases h
  reads s t v s' high hhigh hst h := by
    rw [readLocal_apply] at h
    split at h
    next w hw =>
      cases h
      have hwt : t.stack[i]? = some v := (hst.entry i (.inl hi)).symm.trans hw
      exact ⟨t, by rw [readLocal_apply, hwt], hst⟩
    · cases h
  full s e h he := by
    rw [readLocal_apply] at h
    subst he
    split at h <;> cases h

theorem effect_inArena {region : String} (hregion : region ≠ "operand stack") (m : ArenaM α) :
    Eff env low 0 0 (inArena region m : Exec F α) :=
  .get_bind (fun _ => rfl) fun s => by
    split
    · exact .throw _ nofun (by simp [hregion])
    · exact .bind_neutral (.modify _ (fun _ => rfl) (fun _ => rfl) fun _ => rfl) fun _ => .pure _

theorem effect_inRegistry (m : StateM (List ℕ) α) : Eff env low 0 0 (inRegistry m : Exec F α) :=
  .get_bind (fun _ => rfl) fun _ =>
    .bind_neutral (.modify _ (fun _ => rfl) (fun _ => rfl) fun _ => rfl) fun _ => .pure _

theorem effect_resolveBody (body : Handle) :
    Eff env low 0 0 (resolveBody body : Exec F (List UInt8)) :=
  .get_bind (fun _ => rfl) fun s => by
    split
    · exact .throw _ nofun nofun
    · exact .pure _

theorem effect_nestedField (body : Handle) (offset size : ℕ) (variant : CompositeKind) :
    Eff env low 0 0 (nestedField body offset size variant : Exec F (Value F)) :=
  .get_bind (fun _ => rfl) fun s => by
    split
    · exact .throw _ nofun nofun
    · exact .pure _

theorem effect_ofScalar (r : Except ScalarError α) : Eff env low 0 0 (ofScalar r : Exec F α) := by
  unfold ofScalar
  split
  · exact .pure _
  next e =>
    cases e with
    | unsupportedWidth => exact .throw _ nofun nofun
    | referenceKind => exact .throw _ nofun nofun
    | outOfBounds => exact .throw _ nofun nofun

/-! ## Data slots -/

theorem effect_readSharedFromBuffer (slot : ℕ) : Eff env low 0 0 (readSharedFromBuffer env slot) :=
  by
  unfold readSharedFromBuffer
  split
  · exact .throw _ nofun nofun
  refine .get_bind (fun _ => rfl) fun s => ?_
  split
  · exact .throw _ nofun nofun
  split
  · split
    · exact .throw _ nofun nofun
    · exact effect_ofScalar _
  · split
    · exact .throw _ nofun nofun
    · split
      · exact .throw _ nofun nofun
      · exact (effect_inArena (by decide) _).bind_neutral fun _ => .pure _

theorem effect_readDataSlot (slot : ℕ) : Eff env low 0 0 (readDataSlot env slot) := by
  unfold readDataSlot
  split
  · exact effect_readSharedFromBuffer slot
  · exact .get_bind (fun _ => rfl) fun _ => .pure _

theorem effect_writeSharedToBuffer (slot : ℕ) (v : Value F) :
    Eff env low 0 0 (writeSharedToBuffer env slot v) := by
  unfold writeSharedToBuffer
  split
  · exact .throw _ nofun nofun
  split
  · refine .get_bind (fun _ => rfl) fun s => ?_
    split
    · exact .throw _ nofun nofun
    · split
      · split
        · exact .modify _ (fun _ => rfl) (fun _ => rfl) fun _ => rfl
        · exact .throw _ nofun nofun
      · exact .throw _ nofun nofun
  · split
    · exact .throw _ nofun nofun
    · refine (effect_resolveBody _).bind_neutral fun bytes => ?_
      split
      · exact .throw _ nofun nofun
      · refine .get_bind (fun _ => rfl) fun s => ?_
        split
        · exact .throw _ nofun nofun
        · exact .modify _ (fun _ => rfl) (fun _ => rfl) fun _ => rfl

theorem effect_persistCompositeBody (kind : CompositeKind) (body : Handle) (off : ℕ) :
    Eff env low 0 0 (persistCompositeBody env kind body off) := by
  unfold persistCompositeBody
  refine (effect_resolveBody _).bind_neutral fun bytes => .get_bind (fun _ => rfl) fun s => ?_
  dsimp only
  split
  · exact .throw _ nofun nofun
  · split
    · exact .throw _ nofun (by simp)
    · exact .bind_neutral (.modify _ (fun _ => rfl) (fun _ => rfl) fun _ => rfl) fun _ => .pure _

theorem effect_writeDataSlot (slot : ℕ) (v : Value F) :
    Eff env low 0 0 (writeDataSlot env slot v) := by
  unfold writeDataSlot
  split
  · exact effect_writeSharedToBuffer slot v
  · dsimp only
    split
    · exact (effect_persistCompositeBody _ _ _).bind_neutral fun _ =>
        .modify _ (fun _ => rfl) (fun _ => rfl) fun _ => rfl
    · exact .bind_neutral (.pure _) fun _ => .modify _ (fun _ => rfl) (fun _ => rfl) fun _ => rfl

end Keleusma
