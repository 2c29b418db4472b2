import Keleusma.Runtime.Stepping
import Keleusma.Store.Slots

/-!
# Accesses to private data

What a step does to private data: it pushes the value of a slot (`step_reads`), it stores a value to
a slot (`step_stores`), or it keeps private data (`step_keeps`). The slot and the value are known
before the step, from the instruction and the operands on the stack.
-/

namespace Keleusma

open StackEffect

variable {F : Type} {env : Env F}

/-! ## What an instruction accesses -/

/-- The private slot among the `len` slots from `base` on that an index selects. -/
def Env.privateSlotAt (env : Env F) (base len : ℕ) (index : Int) : Option ℕ :=
  if 0 ≤ index ∧ index < len ∧ env.sharedSlotCount ≤ base + index.toNat then
    some (base + index.toNat - env.sharedSlotCount)
  else none

/-- The private slot that an instruction reads. An indexed read has its index below its fallback. -/
def Op.reads (env : Env F) (stack : List (Value F)) : Op → Option ℕ
  | .getData slot => env.privateSlotAt slot 1 0
  | .getDataIndexed base n =>
    match stack.dropLast.getLast? with
    | some (.int index) => env.privateSlotAt base n index
    | _ => none
  | _ => none

/-- The private slot that an instruction stores to, and the value. -/
def Op.stores (env : Env F) (stack : List (Value F)) : Op → Option (ℕ × Value F)
  | .setData slot => do return (← env.privateSlotAt slot 1 0, ← stack.getLast?)
  | .setDataIndexed base n =>
    match stack.getLast? with
    | some (.int index) => do
      return (← env.privateSlotAt base n index, ← stack.dropLast.getLast?)
    | _ => none
  | _ => none

/-- The instruction that the machine is about to execute. -/
def dueOp (env : Env F) (s : Vm F) : Option Op := do
  (env.ops (← s.frames.head?).chunkIdx)[(← s.frames.head?).ip]?

/-- The store that the machine is about to carry out. -/
def dueStore (env : Env F) (s : Vm F) : Option (ℕ × Value F) := do
  (← dueOp env s).stores env s.stack

/-- The read that the machine is about to carry out. -/
def dueRead (env : Env F) (s : Vm F) : Option ℕ := do (← dueOp env s).reads env s.stack

theorem dueOp_eq_some {s : Vm F} {op : Op} (h : dueOp env s = some op) :
    ∃ f rest, s.frames = f :: rest ∧ (env.ops f.chunkIdx)[f.ip]? = some op := by
  unfold dueOp at h
  cases hf : s.frames with
  | nil =>
    rw [hf] at h
    cases h
  | cons f rest =>
    rw [hf] at h
    exact ⟨f, rest, rfl, h⟩

theorem privateSlotAt_eq_some {base len : ℕ} {index : Int} {i : ℕ}
    (h : env.privateSlotAt base len index = some i) :
    0 ≤ index ∧ index < len ∧ base + index.toNat = env.sharedSlotCount + i := by
  unfold Env.privateSlotAt at h
  split at h
  next hin =>
    cases h
    omega
  · cases h

theorem privateSlotAt_eq_none {base len : ℕ} {index : Int}
    (h : env.privateSlotAt base len index = none) :
    index < 0 ∨ (len : Int) ≤ index ∨ base + index.toNat < env.sharedSlotCount := by
  unfold Env.privateSlotAt at h
  split at h
  · cases h
  next hout => omega

/-! ## The handlers -/

section

variable {slot base len : ℕ} {s s' : Vm F} {u : Unit} {v : Value F}

/-- Without its top `n` operands. -/
abbrev Vm.popped (s : Vm F) (stack : List (Value F)) : Vm F := { s with stack }

theorem readDataSlot_private {i : ℕ} (h : readDataSlot env slot s = .ok (v, s'))
    (hslot : slot = env.sharedSlotCount + i) :
    v = s.privateData.getD i .unit ∧ s' = s := by
  unfold readDataSlot at h
  rw [hslot, if_neg (by omega), Nat.add_sub_cancel_left] at h
  cases h
  exact ⟨rfl, rfl⟩

theorem execGetData_ok (h : execGetData env slot s = .ok (u, s')) : slot < env.dataLen ∧
    ∃ v s₁, readDataSlot env slot s = .ok (v, s₁) ∧
      s' = { s₁ with stack := s₁.stack ++ [v] } := by
  unfold execGetData at h
  split at h
  · cases h
  next hslot =>
    obtain ⟨v, s₁, hread, hpush⟩ := bind_ok h
    exact ⟨not_le.1 hslot, v, s₁, hread, push_ok hpush⟩

theorem execSetData_ok (h : execSetData env slot s = .ok (u, s')) : slot < env.dataLen ∧
    ∃ v, s.stack.getLast? = some v ∧
      writeDataSlot env slot v (s.popped s.stack.dropLast) = .ok (u, s') := by
  unfold execSetData at h
  split at h
  · cases h
  next hslot =>
    obtain ⟨v, s₁, hpop, hwrite⟩ := bind_ok h
    obtain ⟨hv, rfl⟩ := pop_ok hpop
    exact ⟨not_le.1 hslot, v, hv, hwrite⟩

/-- An indexed read with a valid index pushes the value of its slot, and reports the index. -/
theorem execGetDataIndexed_ok {index : Int}
    (hindex : s.stack.dropLast.getLast? = some (.int index)) (h₀ : 0 ≤ index) (h₁ : index < len)
    (h : execGetDataIndexed env base len s = .ok (u, s')) : base + len ≤ env.dataLen ∧
      ∃ v s₁ suffix, readDataSlot env (base + index.toNat)
          (s.popped s.stack.dropLast.dropLast) = .ok (v, s₁) ∧
        s' = { s₁ with stack := s₁.stack ++ v :: suffix } := by
  obtain ⟨fallback, s₁, hpop, h⟩ := bind_ok h
  obtain ⟨hfallback, rfl⟩ := pop_ok hpop
  split at h
  all_goals try cases h
  all_goals
    obtain ⟨top, s₂, hpop₂, h⟩ := bind_ok h
    obtain ⟨htop, rfl⟩ := pop_ok hpop₂
    rw [show s.stack.dropLast.getLast? = some top from htop] at hindex
    cases hindex
    dsimp only at h
    split at h
    · cases h
    next hspan =>
      rw [decide_eq_false (by omega)] at h
      obtain ⟨v, s₃, hread, h⟩ := bind_ok h
      obtain ⟨_, s₄, hpush, hsuffix⟩ := bind_ok h
      rw [push_ok hpush] at hsuffix
      refine ⟨not_lt.1 hspan, v, s₃, indexSuffix env index len false, hread, ?_⟩
      rw [pushAll_ok hsuffix, List.append_assoc]
      rfl

/-- An indexed store writes its value to the slot of a valid index, and nothing for an invalid
one. It reports the index. -/
theorem execSetDataIndexed_ok (h : execSetDataIndexed env base len s = .ok (u, s')) :
    base + len ≤ env.dataLen ∧ ∃ index v s₁ suffix,
      s.stack.getLast? = some (.int index) ∧ s.stack.dropLast.getLast? = some v ∧
      (if index < 0 ∨ len ≤ index then s₁ = s.popped s.stack.dropLast.dropLast
        else writeDataSlot env (base + index.toNat) v (s.popped s.stack.dropLast.dropLast) =
          .ok ((), s₁)) ∧
      s' = { s₁ with stack := s₁.stack ++ suffix } := by
  obtain ⟨top, s₁, hpop, h⟩ := bind_ok h
  obtain ⟨htop, rfl⟩ := pop_ok hpop
  split at h
  next index =>
    obtain ⟨v, s₂, hpop₂, h⟩ := bind_ok h
    obtain ⟨hv, rfl⟩ := pop_ok hpop₂
    split at h
    · cases h
    next hspan =>
      dsimp only at h
      refine ⟨not_lt.1 hspan, index, v, ?_⟩
      split at h
      next hinvalid =>
        refine ⟨_, _, htop, hv, ?_, pushAll_ok h⟩
        rw [if_pos (of_decide_eq_true hinvalid)]
      next hvalid =>
        obtain ⟨_, s₃, hwrite, hsuffix⟩ := bind_ok h
        refine ⟨s₃, _, htop, hv, ?_, pushAll_ok hsuffix⟩
        rwa [if_neg fun hinvalid => hvalid (decide_eq_true hinvalid)]
  · cases h

end

/-! ## Steps -/

section

variable {s s' : Vm F} {o : Outcome F} {i : ℕ} {v : Value F}

/-- A step that executes a plain instruction runs its handler. -/
theorem step_plain {op : Op} (hop : dueOp env s = some op) (hplain : op.Plain)
    (h : step env s = .ok (o, s')) : ∃ f rest, s.frames = f :: rest ∧
      execOp env f.chunkIdx f.base op (s.goto f rest (f.ip + 1)) = .ok ((), s') := by
  obtain ⟨f, rest, hf, hat⟩ := dueOp_eq_some hop
  have hexec := step_op hf hat h
  rw [execInstr_plain hplain] at hexec
  obtain ⟨_, s₁, hexec, hr⟩ := bind_ok hexec
  cases hr
  exact ⟨f, rest, hf, hexec⟩

/-- **A read of private data pushes the value of the slot** and keeps private data. -/
theorem step_reads (hread : dueRead env s = some i) (h : step env s = .ok (o, s')) :
    i < env.privateSlotCount ∧ s'.arena = s.arena ∧ s'.privateData = s.privateData ∧
      ∃ op suffix, dueOp env s = some op ∧
        s'.stack = s.stack.take (s.stack.length - opRequires op) ++
          s.privateData.getD i .unit :: suffix := by
  obtain ⟨op, hop, hread⟩ := Option.bind_eq_some_iff.1 hread
  cases op with
  | getData slot =>
    obtain ⟨-, -, hslot⟩ := privateSlotAt_eq_some hread
    simp only [Int.toNat_zero, Nat.add_zero] at hslot
    obtain ⟨f, rest, hf, hexec⟩ := step_plain hop trivial h
    obtain ⟨hlt, w, s₁, hw, rfl⟩ := execGetData_ok hexec
    obtain ⟨rfl, rfl⟩ := readDataSlot_private hw hslot
    refine ⟨?_, rfl, rfl, _, [], hop, ?_⟩
    · unfold Env.dataLen at hlt
      omega
    · show s.stack ++ _ = s.stack.take (s.stack.length - 0) ++ _
      rw [Nat.sub_zero, List.take_length]
      rfl
  | getDataIndexed base len =>
    simp only [Op.reads] at hread
    split at hread
    next index hindex =>
      obtain ⟨h₀, h₁, hslot⟩ := privateSlotAt_eq_some hread
      obtain ⟨f, rest, hf, hexec⟩ := step_plain hop trivial h
      have hindex : (s.goto f rest (f.ip + 1)).stack.dropLast.getLast? = some (.int index) := hindex
      obtain ⟨hspan, w, s₁, suffix, hw, rfl⟩ := execGetDataIndexed_ok hindex h₀ h₁ hexec
      obtain ⟨rfl, rfl⟩ := readDataSlot_private hw hslot
      refine ⟨?_, rfl, rfl, _, suffix, hop, ?_⟩
      · unfold Env.dataLen at hspan
        omega
      · show s.stack.dropLast.dropLast ++ _ = s.stack.take (s.stack.length - 2) ++ _
        rw [List.dropLast_eq_take, List.dropLast_eq_take, List.take_take, List.length_take]
        congr 2
        omega
    · cases hread
  | _ => cases hread

/-- **A store puts the value into its slot**, and keeps the rest of private data. -/
theorem step_stores (hstore : dueStore env s = some (i, v)) (h : step env s = .ok (o, s')) :
    i < env.privateSlotCount ∧ ∃ s₀ s₁, s₀.arena = s.arena ∧ s₀.privateData = s.privateData ∧
      Wrote env i s₀ v s₁ ∧ s'.arena = s₁.arena ∧ s'.privateData = s₁.privateData := by
  obtain ⟨op, hop, hstore⟩ := Option.bind_eq_some_iff.1 hstore
  cases op with
  | setData slot =>
    obtain ⟨j, hslot, hstore⟩ := Option.bind_eq_some_iff.1 hstore
    obtain ⟨w, hw, hstore⟩ := Option.bind_eq_some_iff.1 hstore
    cases hstore
    obtain ⟨-, -, hslot⟩ := privateSlotAt_eq_some hslot
    simp only [Int.toNat_zero, Nat.add_zero] at hslot
    obtain ⟨f, rest, hf, hexec⟩ := step_plain hop trivial h
    obtain ⟨hlt, w', hw', hwrite⟩ := execSetData_ok hexec
    rw [show s.stack.getLast? = some w' from hw'] at hw
    cases hw
    rw [hslot] at hwrite
    refine ⟨?_, (s.goto f rest (f.ip + 1)).popped _, _, rfl, rfl, writeDataSlot_ok hwrite, rfl, rfl⟩
    unfold Env.dataLen at hlt
    omega
  | setDataIndexed base len =>
    simp only [Op.stores] at hstore
    split at hstore
    next index hindex =>
      obtain ⟨j, hslot, hstore⟩ := Option.bind_eq_some_iff.1 hstore
      obtain ⟨w, hw, hstore⟩ := Option.bind_eq_some_iff.1 hstore
      cases hstore
      obtain ⟨h₀, h₁, hslot⟩ := privateSlotAt_eq_some hslot
      obtain ⟨f, rest, hf, hexec⟩ := step_plain hop trivial h
      obtain ⟨hspan, index', w', s₁, suffix, hindex', hw', hwrite, rfl⟩ :=
        execSetDataIndexed_ok hexec
      rw [show s.stack.getLast? = some (.int index') from hindex'] at hindex
      cases hindex
      rw [show s.stack.dropLast.getLast? = some w' from hw'] at hw
      cases hw
      rw [if_neg (by omega), hslot] at hwrite
      refine ⟨?_, (s.goto f rest (f.ip + 1)).popped _, _, rfl, rfl, writeDataSlot_ok hwrite, rfl,
        rfl⟩
      unfold Env.dataLen at hspan
      omega
    · cases hstore
  | _ => cases hstore

/-- A store to a shared slot keeps private data. -/
theorem keeps_writeDataSlot_shared (hnatives : env.CalmNatives) {slot : ℕ}
    (hslot : slot < env.sharedSlotCount) (v : Value F) : Keeps (writeDataSlot env slot v) := by
  unfold writeDataSlot
  rw [if_pos hslot]
  exact handled_writeSharedToBuffer (keeps_handled hnatives) slot v

/-- **A step without a store to a private slot keeps private data.** -/
theorem step_keeps (hnatives : env.CalmNatives) (hstore : dueStore env s = none)
    (h : step env s = .ok (o, s')) : s.Kept s' := by
  have hhandled := keeps_handled hnatives
  cases hop : dueOp env s with
  | none =>
    refine handled_endOfChunk hhandled (step_end h fun f rest hf => ?_).2
    unfold dueOp at hop
    rw [hf] at hop
    exact hop
  | some op =>
    obtain ⟨f, rest, hf, hat⟩ := dueOp_eq_some hop
    have hgoto : s.Kept (s.goto f rest (f.ip + 1)) := ⟨.refl _, rfl⟩
    refine trans_of Vm.Kept hgoto ?_
    have hnone : op.stores env s.stack = none := by
      unfold dueStore at hstore
      rw [hop] at hstore
      exact hstore
    have hexec := step_op hf hat h
    cases op with
    | setData slot =>
      obtain ⟨_, s₁, hexec, hr⟩ := bind_ok hexec
      cases hr
      obtain ⟨-, w, hw, hwrite⟩ := execSetData_ok hexec
      have hslot : env.privateSlotAt slot 1 0 = none := by
        simp only [Op.stores] at hnone
        rw [show s.stack.getLast? = some w from hw] at hnone
        cases hat : env.privateSlotAt slot 1 0 with
        | none => rfl
        | some i =>
          rw [hat] at hnone
          cases hnone
      have hshared := privateSlotAt_eq_none hslot
      simp only [Int.toNat_zero, Nat.add_zero] at hshared
      have hlt : slot < env.sharedSlotCount := by omega
      have hkept := keeps_writeDataSlot_shared hnatives hlt w hwrite
      exact ⟨hkept.arena, hkept.privateData⟩
    | setDataIndexed base len =>
      obtain ⟨_, s₁, hexec, hr⟩ := bind_ok hexec
      cases hr
      obtain ⟨-, index, w, s₂, suffix, hindex, hw, hwrite, rfl⟩ := execSetDataIndexed_ok hexec
      have hslot : env.privateSlotAt base len index = none := by
        simp only [Op.stores] at hnone
        rw [show s.stack.getLast? = some (.int index) from hindex,
          show s.stack.dropLast.getLast? = some w from hw] at hnone
        cases hat : env.privateSlotAt base len index with
        | none => rfl
        | some i =>
          simp only [hat] at hnone
          cases hnone
      have hshared := privateSlotAt_eq_none hslot
      split at hwrite
      · cases hwrite
        exact ⟨.refl _, rfl⟩
      · have hlt : base + index.toNat < env.sharedSlotCount := by omega
        have hkept := keeps_writeDataSlot_shared hnatives hlt w hwrite
        exact ⟨hkept.arena, hkept.privateData⟩
    | _ => exact keeps_execInstr hnatives id f hexec

end

end Keleusma
