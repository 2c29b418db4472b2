import Keleusma.Bytecode.Program

/-!
# Emitting code

The compiler of a function appends instructions, constants and local slots. A lowering is a program
over that state. Jumps are emitted with a placeholder and patched when their target is known;
everything else only grows (`FuncCompiler.Extends`).
-/

namespace Keleusma

/-- The chunk that is being compiled, as far as lowerings see it. -/
structure FuncCompiler where
  ops : List Op
  constants : List ConstValue
  nextSlot : ℕ

/-- A program over the state, which may patch what it has emitted. -/
def Emission (α : Type) : Type := FuncCompiler → α × FuncCompiler

instance : Monad Emission where
  pure a := fun fc => (a, fc)
  bind m k := fun fc => k (m fc).1 (m fc).2

/-- The second state has what the first one has, and more. -/
structure FuncCompiler.Extends (fc fc' : FuncCompiler) : Prop where
  ops : fc.ops <+: fc'.ops
  constants : fc.constants <+: fc'.constants
  slots : fc.nextSlot ≤ fc'.nextSlot

namespace FuncCompiler.Extends

variable {fc fc₁ fc₂ : FuncCompiler}

theorem rfl : fc.Extends fc := ⟨List.prefix_rfl, List.prefix_rfl, le_rfl⟩

theorem trans (h : fc.Extends fc₁) (h' : fc₁.Extends fc₂) : fc.Extends fc₂ :=
  ⟨h.ops.trans h'.ops, h.constants.trans h'.constants, h.slots.trans h'.slots⟩

end FuncCompiler.Extends

/-- **A lowering**: what was emitted before it stays as it is. -/
structure Lower (α : Type) where
  run : Emission α
  grows : ∀ fc : FuncCompiler, fc.Extends (run fc).2

instance : Monad Lower where
  pure a := ⟨pure a, fun _ => .rfl⟩
  bind m k := ⟨m.run >>= fun a => (k a).run, fun fc => (m.grows fc).trans ((k _).grows _)⟩

namespace Lower

variable {α β : Type}

/-- Emit instructions one after the other. -/
def emitAll (ops : List Op) : Lower Unit where
  run fc := ((), { fc with ops := fc.ops ++ ops })
  grows fc := ⟨List.prefix_append fc.ops ops, List.prefix_rfl, le_rfl⟩

def emit (op : Op) : Lower Unit := emitAll [op]

/-- The constant is the integer. -/
def isInt (value : Int) : ConstValue → Bool
  | .int n => n == value
  | _ => false

/-- The index of an integer constant, which is appended if the chunk does not have it. -/
def addConstant (value : Int) : Lower ℕ where
  run fc :=
    match fc.constants.findIdx? (isInt value) with
    | some i => (i % 2 ^ 16, fc)
    | none =>
      (fc.constants.length % 2 ^ 16, { fc with constants := fc.constants ++ [.int value] })
  grows fc := by
    split
    · exact .rfl
    · exact ⟨List.prefix_rfl, List.prefix_append _ _, le_rfl⟩

def declareLocal : Lower ℕ where
  run fc := (fc.nextSlot, { fc with nextSlot := fc.nextSlot + 1 })
  grows fc := ⟨List.prefix_rfl, List.prefix_rfl, Nat.le_succ fc.nextSlot⟩

end Lower

/-! ## Jumps -/

/-- Emit a jump whose target is not known yet; its position is returned. -/
def emitJump (placeholder : Op) : Emission ℕ := fun fc =>
  (fc.ops.length, { fc with ops := fc.ops ++ [placeholder] })

/-- The jump with another target. -/
def retarget (target : ℕ) : Op → Op
  | .ifOp _ => .ifOp target
  | .elseOp _ => .elseOp target
  | .loop _ => .loop target
  | .endLoop _ => .endLoop target
  | .break _ => .break target
  | .breakIf _ => .breakIf target
  | op => op

/-- Let the jump at a position go to where the code ends now. -/
def patchJump (addr : ℕ) : Emission Unit := fun fc =>
  ((), { fc with ops := fc.ops.modify addr (retarget (fc.ops.length % 2 ^ 16)) })

/-- `If`, a body, `Else`, another body, `EndIf`. -/
def emitIfElse (body other : Lower Unit) : Emission Unit := do
  let ifAddr ← emitJump (.ifOp 0)
  body.run
  let elseAddr ← emitJump (.elseOp 0)
  patchJump ifAddr
  other.run
  patchJump elseAddr
  (Lower.emit .endIf).run

theorem modify_append {γ : Type} (f : γ → γ) (before : List γ) (c : γ) (after : List γ) :
    (before ++ c :: after).modify before.length f = before ++ f c :: after := by
  induction before with
  | nil => rfl
  | cons b before ih => exact congrArg (b :: ·) ih

/-- The code of a conditional with two branches. -/
theorem ifElse_ops (body other : Lower Unit) (fc : FuncCompiler) : ∃ code code' fc₂,
      (body.run { fc with ops := fc.ops ++ [.ifOp 0] }).2.ops = fc.ops ++ .ifOp 0 :: code ∧
      fc₂ = { (body.run { fc with ops := fc.ops ++ [.ifOp 0] }).2 with
        ops := fc.ops ++ .ifOp ((fc.ops.length + 1 + code.length + 1) % 2 ^ 16) ::
          (code ++ [.elseOp 0]) } ∧
      (other.run fc₂).2.ops = fc₂.ops ++ code' ∧
      (emitIfElse body other fc).2 = { (other.run fc₂).2 with
        ops := fc.ops ++ .ifOp ((fc.ops.length + 1 + code.length + 1) % 2 ^ 16) ::
          (code ++ .elseOp ((fc.ops.length + 1 + code.length + 1 + code'.length) % 2 ^ 16) ::
            (code' ++ [.endIf])) } := by
  obtain ⟨code, hcode⟩ := (body.grows { fc with ops := fc.ops ++ [.ifOp 0] }).ops
  rw [List.append_assoc, List.singleton_append] at hcode
  obtain ⟨fc₂, hfc₂⟩ : ∃ fc₂ : FuncCompiler,
      fc₂ = { (body.run { fc with ops := fc.ops ++ [.ifOp 0] }).2 with
        ops := fc.ops ++ .ifOp ((fc.ops.length + 1 + code.length + 1) % 2 ^ 16) ::
          (code ++ [.elseOp 0]) } := ⟨_, rfl⟩
  obtain ⟨code', hcode'⟩ := (other.grows fc₂).ops
  refine ⟨code, code', fc₂, hcode.symm, hfc₂, hcode'.symm, ?_⟩
  have hsteps : (emitIfElse body other fc).2 =
      ((Lower.emit .endIf).run (patchJump (body.run { fc with ops :=
        fc.ops ++ [.ifOp 0] }).2.ops.length
        (other.run (patchJump fc.ops.length (emitJump (.elseOp 0)
          (body.run { fc with ops := fc.ops ++ [.ifOp 0] }).2).2).2).2).2).2 := rfl
  have hpatch : (patchJump fc.ops.length (emitJump (.elseOp 0)
      (body.run { fc with ops := fc.ops ++ [.ifOp 0] }).2).2).2 = fc₂ := by
    rw [hfc₂, emitJump, patchJump, ← hcode, List.append_assoc, List.cons_append, modify_append,
      List.length_append, List.length_cons, List.length_append, List.length_singleton,
      show fc.ops.length + (code.length + 1 + 1) = fc.ops.length + 1 + code.length + 1 by omega]
    rfl
  have hbefore : fc₂.ops ++ code' =
      (fc.ops ++ .ifOp ((fc.ops.length + 1 + code.length + 1) % 2 ^ 16) :: code) ++
        .elseOp 0 :: code' := by
    rw [hfc₂]
    simp only [List.append_assoc, List.cons_append, List.nil_append]
  have haddr : (fc.ops ++ Op.ifOp 0 :: code).length =
      (fc.ops ++ Op.ifOp ((fc.ops.length + 1 + code.length + 1) % 2 ^ 16) :: code).length := by
    rw [List.length_append, List.length_cons, List.length_append, List.length_cons]
  have hlen : ((fc.ops ++ .ifOp ((fc.ops.length + 1 + code.length + 1) % 2 ^ 16) :: code) ++
      Op.elseOp 0 :: code').length = fc.ops.length + 1 + code.length + 1 + code'.length := by
    rw [List.length_append, List.length_append, List.length_cons, List.length_cons]
    omega
  rw [hsteps, hpatch, patchJump, Lower.emit, Lower.emitAll, ← hcode, ← hcode', haddr, hbefore,
    modify_append, hlen]
  simp only [List.append_assoc, List.cons_append, retarget]

/-- A body that runs when the condition on the stack holds, and one that runs when it does not. -/
def Lower.ifElse (body other : Lower Unit) : Lower Unit where
  run := emitIfElse body other
  grows fc := by
    obtain ⟨code, code', fc₂, -, hfc₂, -, hfinal⟩ := ifElse_ops body other fc
    have hgrow := body.grows { fc with ops := fc.ops ++ [.ifOp 0] }
    have hgrow' := other.grows fc₂
    rw [hfinal]
    refine ⟨List.prefix_append _ _, hgrow.constants.trans ?_, hgrow.slots.trans ?_⟩
    · have hconstants := hgrow'.constants
      rwa [hfc₂] at hconstants ⊢
    · have hslots := hgrow'.slots
      rwa [hfc₂] at hslots ⊢

end Keleusma
