import Keleusma.Runtime.Stepping

/-!
# What the host does

`callFunction` puts the arguments on the stack and enters a frame (`callFunction_ok`); `resume`
writes the parameter of a stream and gives a suspended `Yield` its value (`resume_ok`). A run
alternates the two kinds of transition, and its status says how it was suspended
(`Reaches.suspension`).
-/

namespace Keleusma

variable {F α : Type} {env : Env F}

/-! ## Entry -/

/-- What preparing a value leaves alone. -/
abbrev SameFrame (s s' : Vm F) : Prop :=
  s'.stack = s.stack ∧ s'.frames = s.frames ∧ s'.started = s.started ∧
    s'.suspendedAtReset = s.suspendedAtReset

theorem Eff.sameFrame (env : Env F) {m : Exec F α} (hm : Eff env 0 0 0 m) {s s' : Vm F} {a : α}
    (h : m s = .ok (a, s')) : SameFrame s s' := by
  obtain ⟨hs, hk⟩ := hm.stack_eq h
  simp only [Prod.mk.injEq] at hk
  exact ⟨hs, hk⟩

theorem enterShared_ok {shared : List UInt8} {s s' : Vm F} {u : Unit}
    (h : enterShared env shared s = .ok (u, s')) : SameFrame s s' := by
  unfold enterShared at h
  split at h
  · cases h
  · cases h
    exact ⟨rfl, rfl, rfl, rfl⟩

theorem pushArgument_ok {c i : ℕ} {arg : Value F} {s s' : Vm F} {u : Unit}
    (h : pushArgument env c i arg s = .ok (u, s')) : s'.frames = s.frames ∧
      ∃ v, s'.stack = s.stack ++ [v] := by
  obtain ⟨v, s₁, hv, h⟩ := bind_ok h
  obtain ⟨hstack, hframes, -⟩ := Eff.sameFrame env (effect_admitHostValue (by decide) _) hv
  dsimp only at h
  split at h
  · obtain ⟨w, s₂, hw, h⟩ := bind_ok h
    obtain ⟨hstack₂, hframes₂, -⟩ := Eff.sameFrame env (effect_inRegistry _) hw
    rw [push_ok h]
    exact ⟨hframes₂.trans hframes, w, by rw [hstack₂, hstack]⟩
  · cases h

theorem pushArguments_ok {c i : ℕ} {args : List (Value F)} {s s' : Vm F} {u : Unit}
    (h : pushArguments env c i args s = .ok (u, s')) : s'.frames = s.frames ∧
      s'.stack.length = s.stack.length + args.length := by
  induction args generalizing i s with
  | nil =>
    cases h
    exact ⟨rfl, rfl⟩
  | cons v vs ih =>
    obtain ⟨_, s₁, hv, hvs⟩ := bind_ok h
    obtain ⟨hframes, w, hstack⟩ := pushArgument_ok hv
    obtain ⟨hframes', hlen⟩ := ih hvs
    refine ⟨hframes'.trans hframes, ?_⟩
    rw [hlen, hstack, List.length_append, List.length_cons, List.length_cons, List.length_nil]
    omega

/-- **A host call of an idle machine enters one frame**, with its local slots on the stack. -/
theorem callFunction_ok {c : ℕ} {shared : List UInt8} {args : List (Value F)} {s s' : Vm F}
    (hidle : s.Idle) (h : callFunction env c shared args s = .ok ((), s')) :
    ∃ chunk, env.chunk? c = some chunk ∧ args.length = chunk.paramCount ∧
      chunk.paramCount ≤ chunk.localCount ∧ s'.frames = [⟨c, 0, 0⟩] ∧
      s'.stack.length = chunk.localCount ∧ s'.started = true := by
  obtain ⟨hnil, hframes⟩ := hidle
  obtain ⟨_, s₁, hshared, h⟩ := bind_ok h
  obtain ⟨hstack₁, hframes₁, -⟩ := enterShared_ok hshared
  rw [hnil] at hstack₁
  rw [hframes] at hframes₁
  split at h
  · cases h
  cases hchunk : env.chunk? c with
  | none =>
    rw [hchunk] at h
    cases h
  | some chunk =>
    rw [hchunk] at h
    dsimp only at h
    split at h
    · cases h
    next hlen =>
      split at h
      · cases h
      · obtain ⟨s₂, s₃, hget, h⟩ := bind_ok h
        cases hget
        obtain ⟨_, s₄, hargs, h⟩ := bind_ok h
        obtain ⟨hframes₄, hlen₄⟩ := pushArguments_ok hargs
        split at h
        · cases h
        next hlc =>
          obtain ⟨_, s₅, hpush, h⟩ := bind_ok h
          obtain ⟨_, s₆, hframe, h⟩ := bind_ok h
          cases h
          have h₅ := pushAll_ok hpush
          have h₆ := pushFrame_ok hframe
          subst h₅ h₆
          have hargs' : args.length = chunk.paramCount := not_not.mp hlen
          refine ⟨chunk, rfl, hargs', by omega, ?_, ?_, rfl⟩
          · simp [hframes₄, hframes₁, hstack₁]
          · simp only [List.length_append, List.length_replicate, hlen₄, hstack₁, List.length_nil]
            omega

/-! ## Resumption -/

/-- The frame whose slot 0 the next resume writes. -/
def paramFrame (env : Env F) (frames : List CallFrame) : Option CallFrame :=
  (resumeFrame env frames).filter fun f =>
    (env.chunk? f.chunkIdx).any fun c => c.blockType == .stream && decide (0 < c.paramCount)

theorem writeStreamParameter_ok {input : Value F} {s s' : Vm F} {u : Unit}
    (h : writeStreamParameter env input s = .ok (u, s')) :
    s'.frames = s.frames ∧ s'.started = s.started ∧ s'.suspendedAtReset = s.suspendedAtReset ∧
      match paramFrame env s.frames with
      | none => s'.stack = s.stack
      | some f => f.base < s.stack.length ∧ s'.stack = s.stack.set f.base input := by
  obtain ⟨s₁, s₂, hget, h⟩ := bind_ok h
  cases hget
  unfold paramFrame
  cases hres : resumeFrame env s.frames with
  | none =>
    rw [hres] at h
    cases h
    exact ⟨rfl, rfl, rfl, rfl⟩
  | some f =>
    rw [hres] at h
    dsimp only at h
    cases hc : env.chunk? f.chunkIdx with
    | none =>
      rw [hc] at h
      cases h
      exact ⟨rfl, rfl, rfl, by simp [Option.filter, hc]⟩
    | some c =>
      rw [hc] at h
      dsimp only at h
      split at h
      next hst =>
        split at h
        · rw [writeLocal_apply] at h
          split at h
          next hlt =>
            cases h
            refine ⟨rfl, rfl, rfl, ?_⟩
            simp only [Option.filter, hc, Option.any_some, hst, if_true]
            exact ⟨hlt, trivial⟩
          · cases h
        · cases h
      next hst =>
        cases h
        refine ⟨rfl, rfl, rfl, ?_⟩
        simp only [Option.filter, hc, Option.any_some]
        rw [if_neg hst]
        trivial

/-- What a resume of the host does to the machine. -/
structure Resumed (env : Env F) (s s' : Vm F) : Prop where
  nonempty : s.frames ≠ []
  frames : s'.frames = s.frames
  started : s'.started = s.started
  suspended : s'.suspendedAtReset = s.suspendedAtReset
  stack : ∃ v w, s'.stack =
    (match paramFrame env s.frames with
      | none => s.stack
      | some f => s.stack.set f.base v) ++ (if s.suspendedAtReset then [] else [w])
  param : ∀ f, paramFrame env s.frames = some f → f.base < s.stack.length

/-- **A resume writes the parameter of a stream, and gives a suspended `Yield` its value.** -/
theorem resume_ok {shared : List UInt8} {input : Value F} {s s' : Vm F}
    (h : resume env shared input s = .ok ((), s')) : Resumed env s s' := by
  obtain ⟨_, s₁, hshared, h⟩ := bind_ok h
  obtain ⟨hstack₁, hframes₁, hstart₁, hsus₁⟩ := enterShared_ok hshared
  obtain ⟨s₂, s₃, hget, h⟩ := bind_ok h
  cases hget
  split at h
  · cases h
  next hsusp =>
    obtain ⟨v, s₄, haccepted, h⟩ := bind_ok h
    obtain ⟨hstack₄, hframes₄, hstart₄, hsus₄⟩ :=
      Eff.sameFrame env (effect_admitHostValue (by decide) _) haccepted
    dsimp only at h
    split at h
    · cases h
    · obtain ⟨v', s₅, hreg, h⟩ := bind_ok h
      obtain ⟨hstack₅, hframes₅, hstart₅, hsus₅⟩ := Eff.sameFrame env (effect_inRegistry _) hreg
      obtain ⟨_, s₆, hparam, h⟩ := bind_ok h
      obtain ⟨hframes₆, hstart₆, hsus₆, hstack₆⟩ := writeStreamParameter_ok hparam
      have hne : s.frames ≠ [] := fun hn => hsusp (by simp [hframes₁, hn])
      have hframes : s₅.frames = s.frames := by rw [hframes₅, hframes₄, hframes₁]
      have hstack : s₅.stack = s.stack := by rw [hstack₅, hstack₄, hstack₁]
      have hsus : s₅.suspendedAtReset = s.suspendedAtReset := by rw [hsus₅, hsus₄, hsus₁]
      have hstart : s₅.started = s.started := by rw [hstart₅, hstart₄, hstart₁]
      rw [hframes, hstack] at hstack₆
      have hwrite : s₆.stack = (match paramFrame env s.frames with
          | none => s.stack
          | some f => s.stack.set f.base v') := by
        split at hstack₆
        next hp => exact hstack₆
        next f hp => exact hstack₆.2
      have hlt : ∀ f, paramFrame env s.frames = some f → f.base < s.stack.length := fun f hp => by
        rw [hp] at hstack₆
        exact hstack₆.1
      split at h
      next hat =>
        cases h
        have hat' : s.suspendedAtReset = true := by rw [← hsus₁]; exact hat
        refine ⟨hne, by rw [hframes₆, hframes], by rw [hstart₆, hstart], by rw [hsus₆, hsus],
          ⟨v', v', ?_⟩, hlt⟩
        rw [hwrite, if_pos hat', List.append_nil]
      next hat =>
        have hat' : ¬s.suspendedAtReset = true := by rw [← hsus₁]; exact hat
        rw [push_ok h]
        refine ⟨hne, by rw [hframes₆, hframes], by rw [hstart₆, hstart], by rw [hsus₆, hsus],
          ⟨v', v', ?_⟩, hlt⟩
        rw [hwrite, if_neg hat']

/-! ## Runs -/

/-- The status of a run says how the machine was suspended. -/
theorem Reaches.suspension {c : ℕ} {cfg : Config F} (h : Reaches env c cfg) :
    (cfg.status = .yielded → cfg.vm.suspendedAtReset = false) ∧
      (cfg.status = .reset → cfg.vm.suspendedAtReset = true) := by
  cases h with
  | start h =>
    obtain ⟨vm, shared, args, -, -, hst⟩ := h
    rw [hst]
    exact ⟨nofun, nofun⟩
  | next h ht =>
    cases ht with
    | exec hstep =>
      cases step_moved hstep with
      | advance h _ => exact ⟨nofun, nofun⟩
      | reset hf hop hlen hpos hf' hstack hsus => exact ⟨nofun, fun _ => hsus⟩
      | call => exact ⟨nofun, nofun⟩
      | returnTo => exact ⟨nofun, nofun⟩
      | runOffTo => exact ⟨nofun, nofun⟩
      | finish => exact ⟨nofun, nofun⟩
      | yield hf hop hv hf' hstack hsus => exact ⟨fun _ => hsus, nofun⟩
    | resume shared input hst h => exact ⟨nofun, nofun⟩

end Keleusma
