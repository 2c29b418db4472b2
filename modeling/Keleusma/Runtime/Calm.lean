import Keleusma.Logic.Preserves
import Keleusma.Runtime.Handled

/-!
# What leaves private data alone

An instruction that writes no data slot leaves the private data slots and the persistent region of
the arena alone, and so do the host's calls and resumes (`keeps_handled`). What they change of the
arena is what allocations change, and a reset: the bytes outside the reclaimable region stay, and
within an epoch so do those in use at the top end (`Arena.Calm`). Natives are the host's; they are
taken to use the arena as the machine does (`Env.CalmNatives`).
-/

namespace Keleusma

open StackEffect

variable {F α : Type} {env : Env F}

/-! ## Calm changes of the arena -/

/-- The bump regions lie between the persistent region and the end of the arena. -/
structure Arena.Ordered (a : Arena) : Prop where
  persistent : a.persistentCapacity ≤ a.capacity
  bottomTop : a.persistentCapacity ≤ a.bottomTop
  topTop : a.topTop ≤ a.capacity

/-- The arena keeps its bounds and the bytes outside the reclaimable region. Within an epoch it
keeps the bytes in use at the top end too. -/
structure Arena.Calm (a a' : Arena) : Prop where
  base : a'.base = a.base
  capacity : a'.capacity = a.capacity
  persistentCapacity : a'.persistentCapacity = a.persistentCapacity
  ordered : a.Ordered → a'.Ordered
  epoch : a.epoch ≤ a'.epoch
  fixed : a.Ordered → ∀ addr, a.addrIsEphemeral addr = false → a'.mem addr = a.mem addr
  topTop : a'.epoch = a.epoch → a'.topTop ≤ a.topTop
  used : a.Ordered → a'.epoch = a.epoch → ∀ addr, a.base + a.topTop ≤ addr →
    a'.mem addr = a.mem addr

theorem Arena.addrIsEphemeral_eq_false {a : Arena} {addr : ℕ} : a.addrIsEphemeral addr = false ↔
    addr < a.base + a.persistentCapacity ∨ a.base + a.capacity ≤ addr := by
  simp only [addrIsEphemeral, Bool.and_eq_false_iff, decide_eq_false_iff_not, not_le, not_lt]

theorem Arena.Allocated.calm {a a' : Arena} (h : a.Allocated a') : a.Calm a' where
  base := h.base
  capacity := h.capacity
  persistentCapacity := h.persistentCapacity
  ordered ho := by
    have hbottom := ho.bottomTop
    have htop := ho.topTop
    have hle := h.topTop
    refine ⟨?_, ?_, ?_⟩
    · rw [h.persistentCapacity, h.capacity]
      exact ho.persistent
    · rwa [h.persistentCapacity, h.bottomTop]
    · rw [h.capacity]
      omega
  epoch := h.epoch.ge
  fixed ho addr haddr := by
    have hbottom := ho.bottomTop
    have htop := ho.topTop
    have hout := Arena.addrIsEphemeral_eq_false.1 haddr
    exact h.mem addr (by omega)
  topTop _ := h.topTop
  used _ _ addr haddr := h.mem addr (by omega)

theorem Arena.Calm.refl (a : Arena) : a.Calm a :=
  ⟨rfl, rfl, rfl, id, le_refl _, fun _ _ _ => rfl, fun _ => le_refl _, fun _ _ _ _ => rfl⟩

theorem Arena.Calm.addrIsEphemeral {a a' : Arena} (h : a.Calm a') (addr : ℕ) :
    a'.addrIsEphemeral addr = a.addrIsEphemeral addr := by
  simp only [Arena.addrIsEphemeral, h.base, h.capacity, h.persistentCapacity]

theorem Arena.Calm.trans {a b c : Arena} (h : a.Calm b) (h' : b.Calm c) : a.Calm c where
  base := h'.base.trans h.base
  capacity := h'.capacity.trans h.capacity
  persistentCapacity := h'.persistentCapacity.trans h.persistentCapacity
  ordered ho := h'.ordered (h.ordered ho)
  epoch := h.epoch.trans h'.epoch
  fixed ho addr haddr := by
    rw [h'.fixed (h.ordered ho) addr (by rwa [h.addrIsEphemeral]), h.fixed ho addr haddr]
  topTop hepoch := by
    have hle := h.epoch
    have hle' := h'.epoch
    exact (h'.topTop (by omega)).trans (h.topTop (by omega))
  used ho hepoch addr haddr := by
    have hle := h.epoch
    have hle' := h'.epoch
    have hb : b.epoch = a.epoch := by omega
    have htop := h.topTop hb
    rw [h'.used (h.ordered ho) (by omega) addr (by rw [h.base]; omega), h.used ho hb addr haddr]

/-- A change of the arena that starts a new epoch and moves its bump pointers only. -/
theorem Arena.Calm.newEpoch {a a' : Arena} (hbase : a'.base = a.base)
    (hcapacity : a'.capacity = a.capacity) (hpersistent : a'.persistentCapacity =
      a.persistentCapacity) (hordered : a.Ordered → a'.Ordered) (hepoch : a.epoch < a'.epoch)
    (hmem : a'.mem = a.mem) : a.Calm a' where
  base := hbase
  capacity := hcapacity
  persistentCapacity := hpersistent
  ordered := hordered
  epoch := hepoch.le
  fixed _ addr _ := by rw [hmem]
  topTop h := absurd h hepoch.ne'
  used _ h := absurd h hepoch.ne'

theorem Arena.calm_resetTop (a : Arena) : a.Calm a.resetTop := by
  unfold Arena.resetTop
  split
  · exact .newEpoch rfl rfl rfl (fun ho =>
      ⟨ho.persistent, ho.bottomTop, le_refl _⟩) (Nat.lt_succ_self _) rfl
  · exact .refl a

/-! ## Programs that keep private data -/

/-- The machine keeps its private data. -/
structure Vm.Kept (s s' : Vm F) : Prop where
  arena : s.arena.Calm s'.arena
  privateData : s'.privateData = s.privateData

instance : IsPreorder (Vm F) Vm.Kept where
  refl _ := ⟨.refl _, rfl⟩
  trans _ _ _ h h' := ⟨h.arena.trans h'.arena, h'.privateData.trans h.privateData⟩

/-- The program keeps private data. -/
abbrev Keeps (m : Exec F α) : Prop := Preserves Vm.Kept m

/-- The registered natives use the arena calmly. -/
def Env.CalmNatives (env : Env F) : Prop :=
  ∀ name entry, env.natives name = some entry →
    ∀ (calls : ℕ) (arena : Arena) (registry : List ℕ) (args : List (Value F)),
      arena.Calm (entry.func calls arena registry args).2

theorem keeps_inArena (region : String) {m : ArenaM α} (hm : Allocates m) :
    Keeps (inArena region m : Exec F α) := by
  refine .bind_get fun s x s' h => ?_
  cases heq : m s.arena with
  | none =>
    simp only [heq] at h
    cases h
  | some r =>
    simp only [heq] at h
    cases h
    exact ⟨(hm heq).calm, rfl⟩

/-- **Programs that keep private data are made of parts that do.** -/
theorem keeps_handled (hnatives : env.CalmNatives) : Handled env (fun _ => True) (@Keeps F) where
  fault _ := trivial
  raise _ := .throw _
  value a := .pure a
  andThen hm hk := hm.bind hk
  look := .get
  change hf := .modify fun s => ⟨by rw [(hf s).1]; exact .refl _, (hf s).2⟩
  allocate region _ hm := keeps_inArena region hm
  call := by
    intro name entry hentry β args k hk
    refine .bind_get fun s x s' h => ?_
    obtain ⟨_, s₁, hmodify, h⟩ := bind_ok h
    cases hmodify
    have hcall : s.Kept { s with
        arena := (entry.func s.nativeCalls s.arena s.ephemeralOpaques args).2
        nativeCalls := s.nativeCalls + 1 } := ⟨hnatives name entry hentry _ _ _ _, rfl⟩
    exact trans_of Vm.Kept hcall (hk _ h)
  reset stack := .modify fun s => ⟨s.arena.calm_resetTop, rfl⟩

/-- An instruction that writes no data slot keeps private data. -/
theorem keeps_execInstr (hnatives : env.CalmNatives) {op : Op} (hop : ¬op.Writes) (f : CallFrame) :
    Keeps (execInstr env f op) :=
  handled_execInstr (keeps_handled hnatives) (.inl fun _ => trivial) (fun h => absurd h hop) f

theorem keeps_callFunction (hnatives : env.CalmNatives) (c : ℕ) (shared : List UInt8)
    (args : List (Value F)) : Keeps (callFunction env c shared args) :=
  handled_callFunction (keeps_handled hnatives) c shared args

theorem keeps_resume (hnatives : env.CalmNatives) (shared : List UInt8) (input : Value F) :
    Keeps (resume env shared input) :=
  handled_resume (keeps_handled hnatives) shared input

end Keleusma
