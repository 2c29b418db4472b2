import Keleusma.Lowering.Emission
import Keleusma.Runtime.Stepping
import Mathlib.Logic.Relation
import Mathlib.Logic.Function.Basic

/-!
# Running emitted code

A frame is viewed as its local slots and its operands above the rest of the machine. `OpRuns` says
what an instruction does to the view, `Straight` what a sequence of plain instructions does, and
`Sim` what the code of a lowering does where it is installed in the chunk.
-/

namespace Keleusma

open Lower

variable {F : Type} {env : Env F}

/-! ## Views -/

/-- Where a frame executes: its chunk, what lies below it, and the operands it has room for. -/
structure Site (F : Type) where
  chunk : ℕ
  below : List (Value F)
  rest : List CallFrame
  room : ℕ

/-- A frame as its local slots and its operands, the top one first; of `vm` the operand stack and
the frames do not matter. -/
structure View (F : Type) where
  vm : Vm F
  slots : ℕ → Value F
  operands : List (Value F)

/-- The machine with the frame at a position. -/
def View.state (env : Env F) (σ : Site F) (x : View F) (ip : ℕ) : Vm F :=
  { x.vm with
    stack := σ.below ++ (List.range (env.chunkLocalCount σ.chunk)).map x.slots ++ x.operands.reverse
    frames := ⟨σ.chunk, ip, σ.below.length⟩ :: σ.rest }

/-- The arena grants the operands that the frame has room for. -/
def Site.Roomy (env : Env F) (σ : Site F) : Prop :=
  ∀ h < σ.below.length + env.chunkLocalCount σ.chunk + σ.room, env.operandRoom h = true

variable {σ : Site F} {vm : Vm F} {l : ℕ → Value F} {os : List (Value F)} {ip : ℕ}

theorem pop_state (v : Value F) : pop ((View.mk vm l (v :: os)).state env σ ip) =
    .ok (v, (View.mk vm l os).state env σ ip) := by
  rw [pop_apply]
  simp only [View.state, List.reverse_cons, ← List.append_assoc, List.getLast?_append,
    List.getLast?_singleton, Option.some_or, List.dropLast_concat]

theorem push_state (hσ : σ.Roomy env) (hroom : os.length < σ.room) (v : Value F) :
    push env v ((View.mk vm l os).state env σ ip) =
      .ok ((), (View.mk vm l (v :: os)).state env σ ip) := by
  have hgrant : env.operandRoom ((View.mk vm l os).state env σ ip).stack.length = true := by
    apply hσ
    simp only [View.state, List.length_append, List.length_map, List.length_range,
      List.length_reverse]
    omega
  rw [push_apply, if_pos hgrant]
  simp only [View.state, List.reverse_cons, List.append_assoc]

theorem pop_pop_state {α : Type} (a b : Value F) (k : Value F → Value F → Exec F α) :
    (pop >>= fun b => pop >>= fun a => k b a) ((View.mk vm l (b :: a :: os)).state env σ ip) =
      k b a ((View.mk vm l os).state env σ ip) := by
  simp [bind, StateT.bind, Except.bind, pop_state]

/-! ## Instructions -/

/-- The instruction takes one view of the frame to the other, wherever it stands. -/
structure OpRuns (env : Env F) (σ : Site F) (op : Op) (x x' : View F) : Prop where
  plain : op.Plain
  exec : ∀ ip, execOp env σ.chunk σ.below.length op (x.state env σ ip) = .ok ((), x'.state env σ ip)

/-- The integer constant of an index. -/
def IntConst (env : Env F) (σ : Site F) (idx : ℕ) (n : Int) : Prop :=
  env.chunkConst σ.chunk idx = .int (Word.wrap env.runtimeBitsLog2 n)

namespace OpRuns

theorem const {idx : ℕ} {n : Int} (hσ : σ.Roomy env) (hroom : os.length < σ.room)
    (h : IntConst env σ idx n) : OpRuns env σ (.const idx) ⟨vm, l, os⟩
      ⟨vm, l, .int (Word.wrap env.runtimeBitsLog2 n) :: os⟩ where
  plain := trivial
  exec ip := by
    rw [execOp, h, push_state hσ hroom]

theorem getLocal {slot : ℕ} (hσ : σ.Roomy env) (hroom : os.length < σ.room)
    (hslot : slot < env.chunkLocalCount σ.chunk) :
    OpRuns env σ (.getLocal slot) ⟨vm, l, os⟩ ⟨vm, l, l slot :: os⟩ where
  plain := trivial
  exec ip := by
    have hget : ((View.mk vm l os).state env σ ip).stack[σ.below.length + slot]? =
        some (l slot) := by
      rw [View.state, List.append_assoc, List.getElem?_append_right (Nat.le_add_right _ _),
        Nat.add_sub_cancel_left, List.getElem?_append_left (by simpa using hslot)]
      simp [hslot]
    show (readLocal (σ.below.length + slot) >>= push env) _ = _
    simp [bind, StateT.bind, Except.bind, readLocal_apply, hget, push_state hσ hroom]

theorem setLocal {slot : ℕ} (v : Value F) (hslot : slot < env.chunkLocalCount σ.chunk) :
    OpRuns env σ (.setLocal slot) ⟨vm, l, v :: os⟩ ⟨vm, Function.update l slot v, os⟩ where
  plain := trivial
  exec ip := by
    have hlt : σ.below.length + slot < ((View.mk vm l os).state env σ ip).stack.length := by
      simp [View.state]
      omega
    have hset : ((List.range (env.chunkLocalCount σ.chunk)).map l).set slot v =
        (List.range (env.chunkLocalCount σ.chunk)).map (Function.update l slot v) := by
      apply List.ext_getElem
      · simp
      · intro i hi hi'
        simp [List.getElem_set, Function.update_apply, eq_comm]
    show (pop >>= writeLocal (σ.below.length + slot)) _ = _
    simp only [bind, StateT.bind, Except.bind, pop_state, writeLocal_apply, if_pos hlt]
    simp [View.state, List.append_assoc, List.set_append_right, List.set_append_left, hslot, hset]

/-- An instruction that takes two operands and leaves one value. -/
theorem binary {op : Op} {k : Value F → Value F → Exec F Unit} {a b v : Value F} (hp : op.Plain)
    (hσ : σ.Roomy env) (hroom : os.length < σ.room)
    (hop : execOp env σ.chunk σ.below.length op = pop >>= fun b => pop >>= fun a => k b a)
    (hk : k b a = push env v) : OpRuns env σ op ⟨vm, l, b :: a :: os⟩ ⟨vm, l, v :: os⟩ where
  plain := hp
  exec ip := by rw [hop, pop_pop_state, hk, push_state hσ hroom]

theorem shl {v c : Int} (hσ : σ.Roomy env) (hroom : os.length < σ.room) :
    OpRuns env σ .shl ⟨vm, l, .int c :: .int v :: os⟩ ⟨vm, l, .int (Word.wrap env.runtimeBitsLog2
      (v * 2 ^ Word.shiftCount env.runtimeBitsLog2 c)) :: os⟩ :=
  .binary trivial hσ hroom rfl rfl

theorem shr {v c : Int} (hσ : σ.Roomy env) (hroom : os.length < σ.room) :
    OpRuns env σ .shr ⟨vm, l, .int c :: .int v :: os⟩ ⟨vm, l, .int (Word.wrap env.runtimeBitsLog2
      (Word.shiftRight v (Word.shiftCount env.runtimeBitsLog2 c))) :: os⟩ :=
  .binary trivial hσ hroom rfl rfl

theorem bitAnd {a b : Int} (hσ : σ.Roomy env) (hroom : os.length < σ.room) :
    OpRuns env σ .bitAnd ⟨vm, l, .int b :: .int a :: os⟩
      ⟨vm, l, .int (Word.bitwise env.runtimeBitsLog2 (· &&& ·) a b) :: os⟩ :=
  .binary trivial hσ hroom rfl rfl

theorem cmpEq {a b : Int} (hσ : σ.Roomy env) (hroom : os.length < σ.room) :
    OpRuns env σ .cmpEq ⟨vm, l, .int b :: .int a :: os⟩ ⟨vm, l, .bool (a == b) :: os⟩ where
  plain := trivial
  exec ip := by
    show (pop >>= fun b => pop >>= fun a => _) _ = _
    rw [pop_pop_state]
    show push env (.bool ((a == b) != false)) _ = _
    rw [push_state hσ hroom, Bool.bne_false]

/-- What a checked operation on words leaves, the flag on top. -/
def checkedTriple (env : Env F) (r : Int) (os : List (Value F)) : List (Value F) :=
  let (low, high, flag) := checkedArithOutputs env.runtimeBitsLog2 env.module.wordBitsLog2 r
  intOf env flag :: .int high :: .int low :: os

theorem pushChecked_state (hσ : σ.Roomy env) (hroom : os.length + 2 < σ.room) (r : Int) :
    pushChecked env r ((View.mk vm l os).state env σ ip) =
      .ok ((), (View.mk vm l (checkedTriple env r os)).state env σ ip) := by
  have hroom₁ : os.length < σ.room := by omega
  have hroom₂ : os.length + 1 < σ.room := by omega
  have hroom₃ : os.length + 1 + 1 < σ.room := hroom
  simp [pushChecked, pushTriple, checkedTriple, bind, StateT.bind, Except.bind, push_state hσ,
    hroom₁, hroom₂, hroom₃]

theorem checkedSub {a b : Int} (hσ : σ.Roomy env) (hroom : os.length + 2 < σ.room) :
    OpRuns env σ .checkedSub ⟨vm, l, .int b :: .int a :: os⟩
      ⟨vm, l, checkedTriple env (a - b) os⟩ where
  plain := trivial
  exec ip := by
    show (pop >>= fun b => pop >>= fun a => _) _ = _
    rw [pop_pop_state]
    exact pushChecked_state hσ hroom _

theorem popN {n : ℕ} (ps : List (Value F)) (hn : ps.length = n) :
    OpRuns env σ (.popN n) ⟨vm, l, ps ++ os⟩ ⟨vm, l, os⟩ where
  plain := trivial
  exec ip := by
    have hstack : ((View.mk vm l (ps ++ os)).state env σ ip).stack =
        ((View.mk vm l os).state env σ ip).stack ++ ps.reverse := by
      simp [View.state]
    have hle : n ≤ ((View.mk vm l (ps ++ os)).state env σ ip).stack.length := by
      rw [hstack, List.length_append, List.length_reverse]
      omega
    have hstart : ((View.mk vm l (ps ++ os)).state env σ ip).stack.length - n =
        ((View.mk vm l os).state env σ ip).stack.length := by
      rw [hstack, List.length_append, List.length_reverse]
      omega
    show (StateT.bind get fun s => StateT.bind (operandStart n) fun start =>
      setStack (s.stack.take start)) _ = _
    simp only [StateT.bind, get, getThe, MonadStateOf.get, StateT.get, bind, Except.bind, pure,
      Except.pure, operandStart_apply, if_pos hle, hstart]
    rw [hstack, List.take_left]
    rfl

theorem byteToWord {b : UInt8} (hσ : σ.Roomy env) (hroom : os.length < σ.room) :
    OpRuns env σ .byteToWord ⟨vm, l, .byte b :: os⟩ ⟨vm, l, intOf env b.toNat :: os⟩ where
  plain := trivial
  exec ip := by
    show (pop >>= fun v => _) _ = _
    simp [bind, StateT.bind, Except.bind, pop_state, push_state hσ hroom]

theorem wordToByte {n : Int} (hσ : σ.Roomy env) (hroom : os.length < σ.room) :
    OpRuns env σ .wordToByte ⟨vm, l, .int n :: os⟩
      ⟨vm, l, .byte (UInt8.ofNat (n % 256).toNat) :: os⟩ where
  plain := trivial
  exec ip := by
    show (pop >>= fun v => _) _ = _
    simp [bind, StateT.bind, Except.bind, pop_state, push_state hσ hroom]

end OpRuns

/-- A sequence of plain instructions takes one view to the other. -/
inductive Straight (env : Env F) (σ : Site F) : List Op → View F → View F → Prop
  | nil {x : View F} : Straight env σ [] x x
  | cons {op : Op} {ops : List Op} {x x' x'' : View F} (h : OpRuns env σ op x x')
      (hs : Straight env σ ops x' x'') : Straight env σ (op :: ops) x x''

theorem Straight.append {ops ops' : List Op} {x x' x'' : View F} (h : Straight env σ ops x x')
    (h' : Straight env σ ops' x' x'') : Straight env σ (ops ++ ops') x x'' := by
  induction h with
  | nil => exact h'
  | cons hop _ ih => exact .cons hop (ih h')

/-! ## Runs of the machine -/

/-- The machine gets from one state to the other by steps. -/
def Runs (env : Env F) : Vm F → Vm F → Prop :=
  Relation.ReflTransGen fun s s' => step env s = .ok (.running, s')

theorem step_state {x : View F} {op : Op} (hop : (env.ops σ.chunk)[ip]? = some op) :
    step env (x.state env σ ip) =
      execInstr env ⟨σ.chunk, ip, σ.below.length⟩ op (x.state env σ (ip + 1)) := by
  simp [step, bind, StateT.bind, get, getThe, MonadStateOf.get, StateT.get, pure, Except.pure,
    Except.bind, View.state, hop, setIp, modify, modifyGet, MonadStateOf.modifyGet,
    StateT.modifyGet]

theorem OpRuns.runs {x x' : View F} {op : Op} (h : OpRuns env σ op x x')
    (hop : (env.ops σ.chunk)[ip]? = some op) :
    Runs env (x.state env σ ip) (x'.state env σ (ip + 1)) := by
  apply Relation.ReflTransGen.single
  rw [step_state hop, execInstr_plain h.plain]
  show StateT.bind (execOp env σ.chunk σ.below.length op) _ _ = _
  rw [StateT.bind, h.exec]
  rfl

/-- Straight code runs where it stands. -/
theorem Straight.runs {ops : List Op} {x x' : View F} (h : Straight env σ ops x x') (ip : ℕ)
    (hops : ∀ i, i < ops.length → (env.ops σ.chunk)[ip + i]? = ops[i]?) :
    Runs env (x.state env σ ip) (x'.state env σ (ip + ops.length)) := by
  induction h generalizing ip with
  | nil => exact .refl
  | @cons op ops x x' x'' hop _ ih =>
    have hhead : (env.ops σ.chunk)[ip]? = some op := hops 0 (Nat.succ_pos _)
    refine (hop.runs hhead).trans ?_
    have htail := ih (ip + 1) fun i hi => by
      rw [Nat.add_assoc, Nat.add_comm 1 i]
      exact hops (i + 1) (Nat.succ_lt_succ hi)
    rwa [List.length_cons, Nat.add_comm ops.length 1, ← Nat.add_assoc]

theorem runs_if {b : Bool} {target : ℕ} (hop : (env.ops σ.chunk)[ip]? = some (.ifOp target)) :
    Runs env ((View.mk vm l (.bool b :: os)).state env σ ip)
      ((View.mk vm l os).state env σ (if b then ip + 1 else target)) := by
  apply Relation.ReflTransGen.single
  have hpop : popBool "condition must be Bool, got "
      ((View.mk vm l (.bool b :: os)).state env σ (ip + 1)) =
        .ok (b, (View.mk vm l os).state env σ (ip + 1)) := by
    unfold popBool
    simp only [bind, StateT.bind, pop_state, Except.bind]
    rfl
  rw [step_state hop, execInstr]
  simp only [bind, StateT.bind, hpop, Except.bind]
  cases b
  · rfl
  · rfl

theorem runs_else {x : View F} {target : ℕ} (hop : (env.ops σ.chunk)[ip]? = some (.elseOp target)) :
    Runs env (x.state env σ ip) (x.state env σ target) := by
  apply Relation.ReflTransGen.single
  rw [step_state hop]
  rfl

theorem runs_endIf {x : View F} (hop : (env.ops σ.chunk)[ip]? = some .endIf) :
    Runs env (x.state env σ ip) (x.state env σ (ip + 1)) := by
  apply Relation.ReflTransGen.single
  rw [step_state hop]
  rfl

/-! ## Lowerings -/

/-- What was emitted from a position on is in the chunk. -/
structure Installed (env : Env F) (c lo : ℕ) (fc : FuncCompiler) : Prop where
  ops : ∀ i, lo ≤ i → i < fc.ops.length → (env.ops c)[i]? = fc.ops[i]?
  constants : ∃ chunk, env.chunk? c = some chunk ∧ fc.constants <+: chunk.constants ∧
    chunk.constants.length ≤ 2 ^ 16
  slots : fc.nextSlot ≤ env.chunkLocalCount c
  size : (env.ops c).length < 2 ^ 16

theorem Installed.first {c lo : ℕ} {fc fc' : FuncCompiler} (h : Installed env c lo fc')
    (hext : fc.Extends fc') : Installed env c lo fc where
  ops i hlo hi := by
    rw [h.ops i hlo (hi.trans_le hext.ops.length_le)]
    obtain ⟨rest, hrest⟩ := hext.ops
    rw [← hrest, List.getElem?_append_left hi]
  constants := by
    obtain ⟨chunk, hchunk, hprefix, hlen⟩ := h.constants
    exact ⟨chunk, hchunk, hext.constants.trans hprefix, hlen⟩
  slots := hext.slots.trans h.slots
  size := h.size

theorem Installed.from {c lo lo' : ℕ} {fc : FuncCompiler} (h : Installed env c lo fc)
    (hlo : lo ≤ lo') : Installed env c lo' fc :=
  ⟨fun i hi hlt => h.ops i (hlo.trans hi) hlt, h.constants, h.slots, h.size⟩

/-- **The code of the lowering**, wherever it is installed, takes the frame from the view to one
that satisfies `Q`. -/
def Sim {α : Type} (env : Env F) (σ : Site F) (m : Lower α) (fc : FuncCompiler) (x : View F)
    (Q : α → FuncCompiler → View F → Prop) : Prop :=
  Installed env σ.chunk fc.ops.length (m.run fc).2 →
    ∃ x', Runs env (x.state env σ fc.ops.length) (x'.state env σ (m.run fc).2.ops.length) ∧
      Q (m.run fc).1 (m.run fc).2 x'

namespace Sim

variable {α β : Type} {fc : FuncCompiler} {x : View F} {Q : α → FuncCompiler → View F → Prop}
  {R : β → FuncCompiler → View F → Prop}

theorem mono {Q' : α → FuncCompiler → View F → Prop} {m : Lower α} (h : Sim env σ m fc x Q)
    (hQ : ∀ a fc' x', Q a fc' x' → Q' a fc' x') : Sim env σ m fc x Q' := by
  intro hinst
  obtain ⟨x', hruns, hq⟩ := h hinst
  exact ⟨x', hruns, hQ _ _ _ hq⟩

/-- **Lowerings one after the other.** -/
theorem bind {m : Lower α} {k : α → Lower β} (h : Sim env σ m fc x Q)
    (h' : ∀ a fc' x', fc.Extends fc' → Q a fc' x' → Sim env σ (k a) fc' x' R) :
    Sim env σ (m >>= k) fc x R := by
  intro hinst
  obtain ⟨x', hruns, hq⟩ := h (hinst.first ((k _).grows _))
  obtain ⟨x'', hruns', hr⟩ := h' _ _ _ (m.grows fc) hq (hinst.from (m.grows fc).ops.length_le)
  exact ⟨x'', hruns.trans hruns', hr⟩

theorem emitAll {ops : List Op} {x' : View F} (h : Straight env σ ops x x') :
    Sim env σ (emitAll ops) fc x fun _ fc' x'' => x'' = x' ∧ fc'.nextSlot = fc.nextSlot := by
  intro hinst
  refine ⟨x', ?_, rfl, rfl⟩
  have hruns := h.runs fc.ops.length fun i hi => by
    have hget := hinst.ops (fc.ops.length + i) (Nat.le_add_right _ _) (by
      show _ < (fc.ops ++ ops).length
      rw [List.length_append]
      omega)
    rw [hget]
    show (fc.ops ++ ops)[fc.ops.length + i]? = _
    rw [List.getElem?_append_right (Nat.le_add_right _ _), Nat.add_sub_cancel_left]
  rwa [← List.length_append] at hruns

theorem emit {op : Op} {x' : View F} (h : OpRuns env σ op x x') :
    Sim env σ (emit op) fc x fun _ fc' x'' => x'' = x' ∧ fc'.nextSlot = fc.nextSlot :=
  emitAll (.cons h .nil)

theorem declareLocal : Sim env σ declareLocal fc x fun slot fc' x' =>
    x' = x ∧ slot = fc.nextSlot ∧ fc'.nextSlot = slot + 1 ∧ slot < env.chunkLocalCount σ.chunk :=
  fun hinst => ⟨x, .refl, rfl, rfl, rfl, hinst.slots⟩

theorem isInt_iff {value : Int} {c : ConstValue} : isInt value c ↔ c = .int value := by
  cases c <;> simp [isInt]

theorem addConstant (value : Int) : Sim env σ (addConstant value) fc x fun idx fc' x' =>
    x' = x ∧ fc'.nextSlot = fc.nextSlot ∧ IntConst env σ idx value := by
  intro hinst
  obtain ⟨chunk, hchunk, hprefix, hlen⟩ := hinst.constants
  -- The index is below the number of constants, so it is not cut.
  have hload {i : ℕ} {cs : List ConstValue} (hcs : cs <+: chunk.constants)
      (hi : cs[i]? = some (.int value)) : IntConst env σ (i % 2 ^ 16) value := by
    have hlt := (List.getElem?_eq_some_iff.mp hi).1
    have hle := hcs.length_le
    obtain ⟨rest, hrest⟩ := hcs
    rw [IntConst, Nat.mod_eq_of_lt (by omega), Env.chunkConst, Env.chunkConstValue, hchunk]
    simp [← hrest, List.getElem?_append_left hlt, hi, ConstValue.compositeKind?, Value.fromConst]
  cases hfind : fc.constants.findIdx? (isInt value) with
  | some i =>
    have hm : (Lower.addConstant value).run fc = (i % 2 ^ 16, fc) := by
      simp only [Lower.addConstant, hfind]
    rw [hm] at hinst hprefix ⊢
    obtain ⟨hlt, hint, -⟩ := List.findIdx?_eq_some_iff_getElem.mp hfind
    exact ⟨x, .refl, rfl, rfl, hload hprefix
      ((List.getElem?_eq_getElem hlt).trans (congrArg some (isInt_iff.mp hint)))⟩
  | none =>
    have hm : (Lower.addConstant value).run fc = (fc.constants.length % 2 ^ 16,
        { fc with constants := fc.constants ++ [.int value] }) := by
      simp only [Lower.addConstant, hfind]
    rw [hm] at hinst hprefix ⊢
    exact ⟨x, .refl, rfl, rfl, hload hprefix List.getElem?_concat_length⟩

/-- **A conditional with two branches** runs the one that the condition selects. -/
theorem ifElse {body other : Lower Unit} {P : View F → Prop} {b : Bool}
    (h : b = true → Sim env σ body { fc with ops := fc.ops ++ [.ifOp 0] } ⟨vm, l, os⟩
      fun _ _ x' => P x')
    (h' : b = false → ∀ fc' : FuncCompiler, fc.Extends fc' →
      Sim env σ other fc' ⟨vm, l, os⟩ fun _ _ x' => P x') :
    Sim env σ (ifElse body other) fc ⟨vm, l, .bool b :: os⟩ fun _ _ x' => P x' := by
  intro hinst
  obtain ⟨code, code', fc₂, hcode, hfc₂, hcode', hfinal⟩ := ifElse_ops body other fc
  change Installed env σ.chunk fc.ops.length (emitIfElse body other fc).2 at hinst
  show ∃ x', Runs env _ (x'.state env σ (emitIfElse body other fc).2.ops.length) ∧ P x'
  rw [hfinal] at hinst ⊢
  have hgrow := other.grows fc₂
  have hconstants : (body.run { fc with ops := fc.ops ++ [.ifOp 0] }).2.constants <+:
      (other.run fc₂).2.constants := by
    have hprefix := hgrow.constants
    rwa [hfc₂] at hprefix ⊢
  have hslots : (body.run { fc with ops := fc.ops ++ [.ifOp 0] }).2.nextSlot ≤
      (other.run fc₂).2.nextSlot := by
    have hle := hgrow.slots
    rwa [hfc₂] at hle ⊢
  obtain ⟨target, htarget⟩ : ∃ t, t = (fc.ops.length + 1 + code.length + 1) % 2 ^ 16 := ⟨_, rfl⟩
  obtain ⟨stop, hstop⟩ : ∃ t, t =
    (fc.ops.length + 1 + code.length + 1 + code'.length) % 2 ^ 16 := ⟨_, rfl⟩
  rw [← htarget, ← hstop] at hinst ⊢
  rw [← htarget] at hfc₂
  have hat (i : ℕ) (hi : i < 1 + (code.length + (1 + (code'.length + 1)))) :
      (env.ops σ.chunk)[fc.ops.length + i]? = (Op.ifOp target ::
        (code ++ .elseOp stop :: (code' ++ [.endIf])))[i]? := by
    rw [hinst.ops _ (Nat.le_add_right _ _) (by simp; omega),
      List.getElem?_append_right (Nat.le_add_right _ _), Nat.add_sub_cancel_left]
  have hend : (env.ops σ.chunk)[fc.ops.length + 1 + code.length + 1 + code'.length]? =
      some .endIf := by
    have hlast := hat (code.length + 1 + code'.length + 1) (by omega)
    rw [List.getElem?_cons_succ, Nat.add_assoc code.length,
      List.getElem?_append_right (Nat.le_add_right _ _), Nat.add_sub_cancel_left,
      Nat.add_comm 1 code'.length, List.getElem?_cons_succ,
      List.getElem?_append_right le_rfl] at hlast
    rw [show fc.ops.length + 1 + code.length + 1 + code'.length =
      fc.ops.length + (code.length + (code'.length + 1) + 1) by omega, hlast]
    simp
  have helse : (env.ops σ.chunk)[fc.ops.length + 1 + code.length]? = some (.elseOp stop) := by
    have hmid := hat (code.length + 1) (by omega)
    rw [List.getElem?_cons_succ, List.getElem?_append_right le_rfl] at hmid
    rw [Nat.add_assoc, Nat.add_comm 1 code.length, hmid]
    simp
  have hlt := (List.getElem?_eq_some_iff.mp hend).1.trans hinst.size
  have hif := hat 0 (by omega)
  rw [Nat.mod_eq_of_lt (by omega)] at htarget
  rw [Nat.mod_eq_of_lt hlt] at hstop
  have hlength : (fc.ops ++ Op.ifOp target ::
      (code ++ .elseOp stop :: (code' ++ [.endIf]))).length =
        fc.ops.length + 1 + code.length + 1 + code'.length + 1 := by
    simp
    omega
  rw [hlength]
  refine Exists.elim (?_ : ∃ x', Runs env
    ((View.mk vm l (.bool b :: os)).state env σ fc.ops.length)
      (x'.state env σ (fc.ops.length + 1 + code.length + 1 + code'.length)) ∧ P x') fun x' hx' =>
        ⟨x', hx'.1.trans (runs_endIf hend), hx'.2⟩
  have hrun : Runs env ((View.mk vm l (.bool b :: os)).state env σ fc.ops.length)
    ((View.mk vm l os).state env σ (if b then fc.ops.length + 1 else target)) := runs_if hif
  cases b with
  | false =>
    have hfc₂Ops : fc₂.ops.length = fc.ops.length + 1 + code.length + 1 := by
      rw [hfc₂]
      simp
      omega
    have hotherInst : Installed env σ.chunk fc₂.ops.length (other.run fc₂).2 := by
      refine ⟨fun i hlo hi => ?_, hinst.constants, hinst.slots, hinst.size⟩
      rw [hcode', List.length_append] at hi
      obtain ⟨j, rfl⟩ := Nat.exists_eq_add_of_le hlo
      have hget := hat (code.length + (1 + j) + 1) (by omega)
      rw [List.getElem?_cons_succ, List.getElem?_append_right (Nat.le_add_right _ _),
        Nat.add_sub_cancel_left, Nat.add_comm 1 j, List.getElem?_cons_succ,
        List.getElem?_append_left (by omega)] at hget
      rw [hcode', List.getElem?_append_right (Nat.le_add_right _ _), Nat.add_sub_cancel_left,
        ← hget, hfc₂Ops]
      congr 1
      omega
    have hext : fc.Extends fc₂ := by
      have hgrow := body.grows { fc with ops := fc.ops ++ [.ifOp 0] }
      rw [hfc₂]
      exact ⟨List.prefix_append _ _, hgrow.constants, hgrow.slots⟩
    obtain ⟨x', hruns, hP⟩ := h' rfl fc₂ hext hotherInst
    rw [hcode', List.length_append, hfc₂Ops] at hruns
    rw [htarget] at hrun
    exact ⟨x', hrun.trans hruns, hP⟩
  | true =>
    have hbodyOps : (body.run { fc with ops := fc.ops ++ [.ifOp 0] }).2.ops.length =
        fc.ops.length + 1 + code.length := by
      rw [hcode]
      simp
      omega
    have hbodyInst : Installed env σ.chunk (fc.ops ++ [Op.ifOp 0]).length
        (body.run { fc with ops := fc.ops ++ [.ifOp 0] }).2 := by
      obtain ⟨chunk, hchunk, hprefix, hlen⟩ := hinst.constants
      refine ⟨fun i hlo hi => ?_, ⟨chunk, hchunk, hconstants.trans hprefix, hlen⟩,
        hslots.trans hinst.slots, hinst.size⟩
      rw [List.length_append, List.length_singleton] at hlo
      rw [hbodyOps] at hi
      obtain ⟨j, rfl⟩ := Nat.exists_eq_add_of_le hlo
      have hget := hat (1 + j) (by omega)
      rw [Nat.add_comm 1 j, List.getElem?_cons_succ,
        List.getElem?_append_left (by omega)] at hget
      rw [hcode, Nat.add_assoc, Nat.add_comm 1 j, hget,
        List.getElem?_append_right (Nat.le_add_right _ _), Nat.add_sub_cancel_left,
        List.getElem?_cons_succ]
    obtain ⟨x', hruns, hP⟩ := h rfl hbodyInst
    rw [hbodyOps, List.length_append, List.length_singleton] at hruns
    rw [← hstop]
    exact ⟨x', (hrun.trans hruns).trans (runs_else helse), hP⟩

end Sim

/-! ## Expressions -/

/-- The code of an expression evaluates to a value: in every state with this rest of the machine
and these contents of the slots that are declared so far, it leaves the value above the operands
and keeps the slots. -/
structure Evaluates (env : Env F) (σ : Site F) (m : Lower Unit) (fc : FuncCompiler) (vm : Vm F)
    (l : ℕ → Value F) (depth : ℕ) (v : Value F) (vm' : Vm F) : Prop where
  runs : ∀ (fc' : FuncCompiler) (l' : ℕ → Value F) (os : List (Value F)), fc.Extends fc' →
    (∀ i < fc.nextSlot, l' i = l i) → os.length ≤ depth → Sim env σ m fc' ⟨vm, l', os⟩
      fun _ _ x' => x'.vm = vm' ∧ x'.operands = v :: os ∧ ∀ i < fc'.nextSlot, x'.slots i = l' i

/-- A local variable. -/
theorem Evaluates.variable {fc : FuncCompiler} {slot depth : ℕ} (hσ : σ.Roomy env)
    (hslot : slot < fc.nextSlot) (hcount : fc.nextSlot ≤ env.chunkLocalCount σ.chunk)
    (hroom : depth < σ.room) :
    Evaluates env σ (Lower.emit (.getLocal slot)) fc vm l depth (l slot) vm where
  runs fc' l' os _ hl hdepth := by
    rw [← hl slot hslot]
    refine (Sim.emit (.getLocal hσ (hdepth.trans_lt hroom) (hslot.trans_le hcount))).mono ?_
    rintro - - x' ⟨rfl, -⟩
    exact ⟨rfl, rfl, fun _ _ => rfl⟩

end Keleusma
