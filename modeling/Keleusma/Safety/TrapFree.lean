import Keleusma.Logic.Preserves
import Keleusma.Runtime.Handled
import Keleusma.Safety.Monitor
import Keleusma.Verify.Traps

/-!
# Trap-free modules

A module that is classified as trap-free raises no language trap: whatever error a run of it ends
in, at the entry, in a step or at a resume, is in the category of the soft script errors only when
it is a type error (`trapFree_quiet`). Type errors remain, since a classification certifies no
operand shapes: an accepted module that negates `Unit` is trap-free (`negUnit_softScript`).
-/

namespace Keleusma

open StackEffect

variable {F α : Type} {env : Env F}

/-! ## Quiet programs -/

/-- The program raises no language trap. -/
abbrev Quiet (m : Exec F α) : Prop := Raises VmError.Quiet m

theorem quiet_inArena (region : String) (m : ArenaM α) : Quiet (inArena region m : Exec F α) := by
  refine .bind .get fun s => ?_
  split
  · exact .throw (VmError.quiet_of_halt rfl)
  · exact .bind (.modify _) fun _ => .pure _

/-- Quiet programs are made of quiet parts. -/
theorem quiet_handled : Handled env VmError.Quiet (@Quiet F) where
  fault h := h
  raise h := .throw h
  value a := .pure a
  andThen hm hk := hm.bind hk
  look := .get
  change _ := .modify _
  allocate _ _ _ := quiet_inArena _ _
  call _ _ _ _ hk := .bind .get fun _ => .bind (.modify _) fun _ => hk _
  reset _ := .modify _

theorem quiet_persistCompositeBody (kind : CompositeKind) (body : Handle) (off : ℕ) :
    Quiet (persistCompositeBody env kind body off) := by
  unfold persistCompositeBody
  refine (handled_resolveBody (@quiet_handled F env) _).bind fun bytes => .bind .get fun s => ?_
  dsimp only
  split
  · exact .throw (VmError.quiet_of_halt rfl)
  · split
    · exact .throw (VmError.quiet_of_halt rfl)
    · exact .bind (.modify _) fun _ => .pure _

/-- A write to a data slot raises no language trap. -/
theorem quiet_writeDataSlot (slot : ℕ) (v : Value F) : Quiet (writeDataSlot env slot v) := by
  unfold writeDataSlot
  split
  · exact handled_writeSharedToBuffer quiet_handled slot v
  · dsimp only
    split
    · exact (quiet_persistCompositeBody _ _ _).bind fun _ => .modify _
    · exact .bind (.pure _) fun _ => .modify _

/-! ## Clear instructions -/

theorem not_clear_trap (kind : ℕ) : ¬ (Op.trap kind).Clear := by
  rintro ⟨location, h⟩
  unfold classifyInstruction at h
  dsimp only at h
  split at h <;> cases h

theorem Op.Clear.hasBoundsOutcome {elem : ArrayElem} (h : (Op.getIndex elem).Clear) :
    elem.hasBoundsOutcome := by
  obtain ⟨location, h⟩ := h
  by_contra houtcome
  simp [classifyInstruction, houtcome] at h

/-- **A clear instruction raises no language trap**, when indexed reads are of elements that
occupy bytes. -/
theorem Op.Clear.trapless {op : Op} (hclear : op.Clear) (hsized : op.Sized env) :
    op.Trapless env := by
  cases op with
  | trap kind => exact absurd hclear (not_clear_trap kind)
  | getField field =>
    cases field with
    | boxed i => exact hclear.elim nofun
    | _ => trivial
  | getTupleField field =>
    cases field with
    | boxed i => exact hclear.elim nofun
    | _ => trivial
  | getEnumField field =>
    cases field with
    | boxed i => exact hclear.elim nofun
    | _ => trivial
  | getIndex elem => exact ⟨hclear.hasBoundsOutcome, hsized⟩
  | _ => trivial

/-- The instructions of a trap-free module are clear. -/
theorem clear_of_trapFree (h : classifyTraps env.module = .ok .trapFree) {c i : ℕ} {op : Op}
    (hop : (env.ops c)[i]? = some op) : op.Clear := by
  obtain ⟨-, -, hclear⟩ := classifyTraps_trapFree h
  unfold Env.ops at hop
  cases hc : env.chunk? c with
  | none =>
    rw [hc] at hop
    cases hop
  | some chunk =>
    rw [hc] at hop
    exact hclear chunk (List.mem_of_getElem? hc) op (List.mem_of_getElem? hop)

/-- Words of at least a byte occupy bytes, and so do bytes. -/
theorem sized_of_word (h : 3 ≤ env.module.wordBitsLog2) (op : Op) : op.Sized env := by
  have hword : 0 < env.module.wordBytes := by
    have hpow : 2 ^ 3 ≤ 2 ^ env.module.wordBitsLog2 := Nat.pow_le_pow_right (by omega) h
    exact Nat.div_pos hpow (by omega)
  cases op with
  | getIndex elem =>
    cases elem with
    | flat kind =>
      intro houtcome
      cases kind with
      | int => exact hword.ne'
      | byte => exact Nat.one_ne_zero
      | _ => cases houtcome
    | _ => trivial
  | _ => trivial

/-! ## Runs -/

/-- The errors a run of the module ends in: at the call that enters it, in a step, or at the
resume of a suspended machine. -/
inductive EndsIn (env : Env F) : VmError → Prop
  | entry {vm : Vm F} {c : ℕ} {shared : List UInt8} {args : List (Value F)} {e : VmError}
      (hidle : vm.Idle) (h : (callFunction env c shared args).run vm = .error e) : EndsIn env e
  | step {vm : Vm F} {c : ℕ} {e : VmError} (hreach : Reaches env c ⟨vm, .running⟩)
      (h : (step env).run vm = .error e) : EndsIn env e
  | resume {vm : Vm F} {st : Status} {c : ℕ} {shared : List UInt8} {input : Value F} {e : VmError}
      (hreach : Reaches env c ⟨vm, st⟩) (hst : st = .yielded ∨ st = .reset)
      (h : (resume env shared input).run vm = .error e) : EndsIn env e

/-- A step of a trap-free module raises no language trap, from any state. -/
theorem quiet_step (h : classifyTraps env.module = .ok .trapFree) : Quiet (step env) :=
  handled_step quiet_handled
    (.inr fun _ _ _ hop =>
      (clear_of_trapFree h hop).trapless (sized_of_word (classifyTraps_trapFree h).2.1 _))
    quiet_writeDataSlot

/-- **No run of a trap-free module ends in a language trap.** The soft script errors that remain
are type errors. -/
theorem trapFree_quiet (h : classifyTraps env.module = .ok .trapFree) {e : VmError}
    (hend : EndsIn env e) (hsoft : e.category = .softScript) : ∃ message, e = .typeError message :=
      by
  suffices hquiet : e.Quiet from hquiet hsoft
  cases hend with
  | entry hidle hcall => exact handled_callFunction quiet_handled _ _ _ _ _ hcall
  | step hreach hstep => exact quiet_step h _ _ hstep
  | resume hreach hst hresume => exact handled_resume quiet_handled _ _ _ _ hresume

/-! ## A type error -/

/-- A function that negates `Unit`. -/
def negUnit : Module := plainModule [plainChunk [.pushImmediate 0, .neg, .return] .func 0 0]

/-- The host calls the function, and its second step fails. -/
theorem negUnit_endsIn : EndsIn (plainEnv negUnit) (.typeError "cannot negate Unit") := by
  have hreach : noRecord.Reaches (plainEnv negUnit) (fun _ => True) 0 _ _ :=
    Monitor.playCall_reaches freshVm_idle
      (show Monitor.playCall _ _ freshVm 0 [] [none] = some _ from rfl)
  exact .step hreach.reaches rfl

/-- What is left of the soft script errors in the runs of `negUnit`. -/
theorem negUnit_quiet : ∃ e, EndsIn (plainEnv negUnit) e ∧ ∃ message, e = .typeError message :=
  ⟨_, negUnit_endsIn, trapFree_quiet rfl negUnit_endsIn rfl⟩

/-- **A run of a trap-free module ends in a soft script error**: a type error. -/
theorem negUnit_softScript : classifyTraps negUnit = .ok .trapFree ∧
    ∃ e, EndsIn (plainEnv negUnit) e ∧ e.category = .softScript :=
  ⟨rfl, _, negUnit_endsIn, rfl⟩

end Keleusma
