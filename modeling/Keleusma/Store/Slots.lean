import Keleusma.Store.Content

/-!
# A store of private data

A machine remembers a ledger of what was last stored to its private slots when each slot shows its
record and keeps its bytes where they are safe (`Remembers`). Whatever keeps private data keeps the
ledger (`Remembers.kept`), and a store changes the one record (`Remembers.write`): the body of a
composite goes to the region of its own slot, since the regions of the pool are disjoint
(`Env.PoolLaid`).
-/

namespace Keleusma

open StackEffect

variable {F : Type}

/-! ## Writing to memory -/

section

variable {a : Arena} {addr : ℕ} {bytes : List UInt8}

theorem Arena.write_mem_of_outside {p : ℕ} (h : p < addr ∨ addr + bytes.length ≤ p) :
    (a.write addr bytes).mem p = a.mem p := by
  show (if addr ≤ p then bytes.getD (p - addr) (a.mem p) else a.mem p) = a.mem p
  split
  next hle =>
    rw [List.getD_eq_getElem?_getD, List.getElem?_eq_none (by omega), Option.getD_none]
  · rfl

theorem Arena.write_read : (a.write addr bytes).read addr bytes.length = bytes := by
  refine List.ext_getElem (by simp) fun i h₁ h₂ => ?_
  simp [Arena.read, Arena.write, h₂]

end

/-! ## The regions of the pool -/

/-- The composite slots have regions of their own, which begin inside of the persistent region. -/
structure Env.PoolLaid (env : Env F) (persistentCapacity : ℕ) : Prop where
  apart : ∀ slot slot' off off', env.privateCompositePoolOffset slot = some off →
    env.privateCompositePoolOffset slot' = some off' → slot ≠ slot' → off ≠ off'
  room : ∀ slot off, env.privateCompositePoolOffset slot = some off →
    env.privateStorage + off < persistentCapacity

section

variable {env : Env F} {slot slot' off off' : ℕ}

theorem Env.privateCompositePoolOffset_mem
    (h : env.privateCompositePoolOffset slot = some off) :
    ∃ layout, env.module.dataLayout = some layout ∧
      ⟨slot, off⟩ ∈ layout.privateCompositeLayout := by
  obtain ⟨layout, hlayout, h⟩ := Option.bind_eq_some_iff.1 h
  obtain ⟨e, he, h⟩ := Option.bind_eq_some_iff.1 h
  cases h
  have hslot := List.find?_some he
  have hmem := List.mem_of_find?_eq_some he
  simp only [beq_iff_eq] at hslot
  exact ⟨layout, hlayout, hslot ▸ hmem⟩

/-- The region of a slot ends where a later one begins, or before. -/
theorem Env.privateCompositeSlotEnd_le (h : env.privateCompositePoolOffset slot' = some off')
    (hlt : off < off') (persistentCapacity : ℕ) :
    env.privateCompositeSlotEnd off persistentCapacity ≤ off' := by
  obtain ⟨layout, hlayout, hmem⟩ := env.privateCompositePoolOffset_mem h
  unfold Env.privateCompositeSlotEnd
  simp only [hlayout]
  have hlater : off' ∈ (layout.privateCompositeLayout.map (·.offset)).filter (off < ·) :=
    List.mem_filter.2 ⟨List.mem_map.2 ⟨_, hmem, rfl⟩, decide_eq_true hlt⟩
  cases hmin : ((layout.privateCompositeLayout.map (·.offset)).filter (off < ·)).min? with
  | none =>
    rw [List.min?_eq_none_iff] at hmin
    rw [hmin] at hlater
    cases hlater
  | some least => exact (List.min?_eq_some_iff.1 hmin).2 off' hlater

/-- **The regions of different slots are disjoint.** -/
theorem Env.PoolLaid.disjoint {capacity len len' : ℕ} (hlaid : env.PoolLaid capacity)
    (hoff : env.privateCompositePoolOffset slot = some off)
    (hoff' : env.privateCompositePoolOffset slot' = some off') (hne : slot ≠ slot')
    (hend : off + len ≤ env.privateCompositeSlotEnd off capacity)
    (hend' : off' + len' ≤ env.privateCompositeSlotEnd off' capacity) :
    off + len ≤ off' ∨ off' + len' ≤ off := by
  obtain hlt | hlt := Nat.lt_or_gt_of_ne (hlaid.apart slot slot' off off' hoff hoff' hne)
  · exact .inl (hend.trans (env.privateCompositeSlotEnd_le hoff' hlt _))
  · exact .inr (hend'.trans (env.privateCompositeSlotEnd_le hoff hlt _))

end

/-! ## Stores -/

section

variable {env : Env F} {i : ℕ} {v : Value F} {s s' : Vm F}

/-- What a successful store does to the machine. -/
inductive Wrote (env : Env F) (i : ℕ) (s : Vm F) : Value F → Vm F → Prop
  | moved {kind : CompositeKind} {body : Handle} {off : ℕ}
      (hoff : env.privateCompositePoolOffset (env.sharedSlotCount + i) = some off)
      (hlive : s.arena.addrIsLive body.addr body.epoch = true)
      (hend : off + body.len ≤ env.privateCompositeSlotEnd off s.arena.persistentCapacity)
      (hcap : env.privateStorage + off + body.len ≤ s.arena.persistentCapacity) :
      Wrote env i s (.flat kind body) { s with
        arena := s.arena.write (s.arena.base + (env.privateStorage + off))
          (s.arena.read body.addr body.len)
        privateData := s.privateData.set i
          (.flat kind ⟨s.arena.base + (env.privateStorage + off), body.len, s.arena.epoch⟩) }
  | plain {v : Value F} (hplain : ∀ kind body, v = .flat kind body →
      env.privateCompositePoolOffset (env.sharedSlotCount + i) = none) :
      Wrote env i s v { s with privateData := s.privateData.set i v }

theorem resolveBody_ok {body : Handle} {bytes : List UInt8}
    (h : resolveBody body s = .ok (bytes, s')) :
    s.arena.addrIsLive body.addr body.epoch = true ∧ bytes = s.arena.read body.addr body.len ∧
      s' = s := by
  rw [resolveBody_apply] at h
  split at h
  next hlive =>
    cases h
    exact ⟨hlive, rfl, rfl⟩
  · cases h

/-- A store moves a composite of the pool there, and puts any other value into the slot. -/
theorem writeDataSlot_ok (h : writeDataSlot env (env.sharedSlotCount + i) v s = .ok ((), s')) :
    Wrote env i s v s' := by
  unfold writeDataSlot at h
  rw [if_neg (by omega), Nat.add_sub_cancel_left] at h
  cases v with
  | flat kind body =>
    cases hoff : env.privateCompositePoolOffset (env.sharedSlotCount + i) with
    | none =>
      rw [hoff] at h
      cases h
      exact .plain fun _ _ _ => hoff
    | some off =>
      rw [hoff] at h
      obtain ⟨stored, s₁, hstored, h⟩ := bind_ok h
      cases h
      obtain ⟨bytes, s₂, hbytes, hstored⟩ := bind_ok hstored
      obtain ⟨hlive, rfl, rfl⟩ := resolveBody_ok hbytes
      obtain ⟨s₃, s₄, hget, hstored⟩ := bind_ok hstored
      cases hget
      dsimp only at hstored
      rw [Arena.read_length] at hstored
      split at hstored
      · cases hstored
      next hend =>
        split at hstored
        · cases hstored
        next hcap =>
          cases hstored
          exact .moved hoff hlive (by omega) (by omega)
  | _ =>
    cases h
    exact .plain nofun

/-- The body of a composite, moved to the region of its slot. -/
abbrev pooledArena (env : Env F) (a : Arena) (off : ℕ) (bytes : List UInt8) : Arena :=
  a.write (a.base + (env.privateStorage + off)) bytes

variable {a : Arena} {slot slot' off : ℕ} {bytes : List UInt8}

/-- Writing to memory moves no bound of the arena. -/
theorem Placed.pooledArena (hplaced : Placed env a slot v) :
    Placed env (pooledArena env a off bytes) slot v := by
  cases hplaced with
  | outside hout => exact .outside hout
  | pooled hoff hroom hend hcap =>
    exact @Placed.pooled F env (Keleusma.pooledArena env a _ bytes) _ _ _ _ _ hoff hroom hend hcap
  | text hheld => exact .text hheld

/-- **A store to one slot of the pool leaves the bytes of every other slot alone.** -/
theorem Placed.content_pooledArena (ho : a.Ordered) (hlaid : env.PoolLaid a.persistentCapacity)
    (hoff : env.privateCompositePoolOffset slot = some off)
    (hend : off + bytes.length ≤ env.privateCompositeSlotEnd off a.persistentCapacity)
    (hcap : env.privateStorage + off + bytes.length ≤ a.persistentCapacity) (hne : slot ≠ slot')
    (hplaced : Placed env a slot' v) :
    v.content (Keleusma.pooledArena env a off bytes) = v.content a := by
  have hle := ho.persistent
  refine Value.content_congr fun body hbody => Arena.resolve_congr rfl fun p hlow hhigh =>
    Arena.write_mem_of_outside ?_
  cases hplaced with
  | outside hout =>
    have hp := (hout body hbody).2 p hlow hhigh
    omega
  | pooled hoff' hroom hend' hcap' =>
    rw [Value.handles, List.mem_singleton] at hbody
    subst hbody
    have hdisjoint := hlaid.disjoint hoff hoff' hne hend hend'
    dsimp only at hlow hhigh
    omega
  | text hheld =>
    rw [Value.handles, List.mem_singleton] at hbody
    subst hbody
    have heph := hheld.1
    simp only [Arena.addrIsEphemeral, Bool.and_eq_true, decide_eq_true_eq] at heph
    omega

/-! ## The ledger -/

/-- The machine remembers what was last stored to the slots. -/
structure Remembers (env : Env F) (slots : Set ℕ) (s : Vm F) (last : ℕ → Record F) : Prop where
  ordered : s.arena.Ordered
  laid : env.PoolLaid s.arena.persistentCapacity
  placed : ∀ i ∈ slots, ∀ v, s.privateData[i]? = some v →
    Placed env s.arena (env.sharedSlotCount + i) v
  shows : ∀ i ∈ slots, ∀ v, s.privateData[i]? = some v → (last i).Shows s.arena v
  epoch : ∀ i ∈ slots, (last i).epoch ≤ s.arena.epoch

variable {slots : Set ℕ} {last : ℕ → Record F}

/-- **Whatever keeps private data keeps the ledger.** -/
theorem Remembers.kept (h : Remembers env slots s last) (hkept : s.Kept s') :
    Remembers env slots s' last where
  ordered := hkept.arena.ordered h.ordered
  laid := by
    rw [hkept.arena.persistentCapacity]
    exact h.laid
  placed i hi v hv := by
    rw [hkept.privateData] at hv
    exact (h.placed i hi v hv).calm hkept.arena
  shows i hi v hv := by
    rw [hkept.privateData] at hv
    exact (h.shows i hi v hv).calm hkept.arena h.ordered (h.placed i hi v hv) (h.epoch i hi)
  epoch i hi := (h.epoch i hi).trans hkept.arena.epoch

/-- A body that was moved into the pool has the bytes it had before. -/
theorem resolve_pooledArena {body : Handle} {epoch : ℕ}
    (hlive : a.addrIsLive body.addr body.epoch = true)
    (hroom : env.privateStorage + off < a.persistentCapacity) :
    (Keleusma.pooledArena env a off (a.read body.addr body.len)).resolve
      ⟨a.base + (env.privateStorage + off), body.len, epoch⟩ = a.resolve body := by
  have hfixed : (Keleusma.pooledArena env a off (a.read body.addr body.len)).addrIsEphemeral
      (a.base + (env.privateStorage + off)) = false := by
    rw [Arena.addrIsEphemeral_eq_false]
    exact .inl (Nat.add_lt_add_left hroom _)
  have hread := @Arena.write_read a (a.base + (env.privateStorage + off))
    (a.read body.addr body.len)
  rw [Arena.read_length] at hread
  rw [Arena.resolve_fixed hfixed]
  unfold Arena.resolve
  rw [if_pos hlive]
  exact congrArg some hread

/-- What a storable value leaves in its slot has its content. -/
theorem Wrote.stored (hlaid : env.PoolLaid s.arena.persistentCapacity)
    (hstorable : Storable env s.arena (env.sharedSlotCount + i) v) (h : Wrote env i s v s')
    {w : Value F} (hw : s'.privateData[i]? = some w) :
    Placed env s'.arena (env.sharedSlotCount + i) w ∧ w.content s'.arena = v.content s.arena := by
  cases h with
  | moved hoff hlive hend hcap =>
    have hroom := hlaid.room _ _ hoff
    rw [List.getElem?_set, if_pos rfl] at hw
    split at hw <;> cases hw
    refine ⟨@Placed.pooled F env (Keleusma.pooledArena env s.arena _ _) _ _ _ _ _ hoff hroom hend
      hcap, ?_⟩
    unfold Value.content
    rw [Value.handles, Value.handles, List.map_singleton, List.map_singleton,
      resolve_pooledArena hlive hroom]
    rfl
  | plain hplain =>
    rw [List.getElem?_set, if_pos rfl] at hw
    split at hw <;> cases hw
    refine ⟨?_, rfl⟩
    cases hstorable with
    | moved hoff =>
      rw [hplain _ _ rfl] at hoff
      cases hoff
    | outside hout => exact .outside hout
    | text hheld => exact .text hheld

/-- A store changes the content of no other slot. -/
theorem Wrote.frame (ho : s.arena.Ordered) (hlaid : env.PoolLaid s.arena.persistentCapacity)
    (h : Wrote env i s v s') {j : ℕ} (hne : i ≠ j) :
    s'.privateData[j]? = s.privateData[j]? ∧
      ∀ w, Placed env s.arena (env.sharedSlotCount + j) w →
        Placed env s'.arena (env.sharedSlotCount + j) w ∧
          w.content s'.arena = w.content s.arena ∧
          (w.Reclaimed s.arena → w.Reclaimed s'.arena) := by
  cases h with
  | moved hoff hlive hend hcap =>
    refine ⟨List.getElem?_set_ne hne, fun w hplaced => ⟨hplaced.pooledArena, ?_, ?_⟩⟩
    · exact hplaced.content_pooledArena ho hlaid hoff (by rwa [Arena.read_length])
        (by rwa [Arena.read_length]) (by omega)
    · cases w <;> exact id
  | plain hplain => exact ⟨List.getElem?_set_ne hne, fun w hplaced => ⟨hplaced, rfl, id⟩⟩

/-- A store keeps the bounds and the epoch of the arena. -/
theorem Wrote.bounds (h : Wrote env i s v s') : s'.arena.epoch = s.arena.epoch ∧
    s'.arena.persistentCapacity = s.arena.persistentCapacity ∧
      (s.arena.Ordered → s'.arena.Ordered) := by
  cases h with
  | moved hoff hlive hend hcap => exact ⟨rfl, rfl, fun ho => ⟨ho.1, ho.2, ho.3⟩⟩
  | plain hplain => exact ⟨rfl, rfl, id⟩

/-- **A store changes the record of its slot, and no other.** -/
theorem Remembers.write (h : Remembers env slots s last)
    (hstorable : Storable env s.arena (env.sharedSlotCount + i) v)
    (hwrite : Wrote env i s v s') :
    Remembers env (insert i slots) s' (Function.update last i (v.record s.arena)) := by
  obtain ⟨hepoch, hcapacity, hordered⟩ := hwrite.bounds
  have hother : ∀ j ∈ insert i slots, j ≠ i → j ∈ slots := fun j hj hne =>
    Set.mem_of_mem_insert_of_ne hj hne
  refine ⟨hordered h.ordered, by rw [hcapacity]; exact h.laid, fun j hj w hw => ?_,
    fun j hj w hw => ?_, fun j hj => ?_⟩
  · by_cases hji : j = i
    · subst hji
      exact (hwrite.stored h.laid hstorable hw).1
    · obtain ⟨hdata, hframe⟩ := hwrite.frame h.ordered h.laid (Ne.symm hji)
      rw [hdata] at hw
      exact (hframe w (h.placed j (hother j hj hji) w hw)).1
  · by_cases hji : j = i
    · subst hji
      rw [Function.update_self]
      exact .inl (hwrite.stored h.laid hstorable hw).2
    · obtain ⟨hdata, hframe⟩ := hwrite.frame h.ordered h.laid (Ne.symm hji)
      rw [hdata] at hw
      rw [Function.update_of_ne hji]
      obtain ⟨-, hcontent, hreclaimed⟩ := hframe w (h.placed j (hother j hj hji) w hw)
      obtain hsame | ⟨hform, hpast, hover⟩ := h.shows j (hother j hj hji) w hw
      · exact .inl (hcontent.trans hsame)
      · exact .inr ⟨hform, by omega, hreclaimed hover⟩
  · by_cases hji : j = i
    · subst hji
      rw [Function.update_self, hepoch]
      exact le_refl _
    · rw [Function.update_of_ne hji, hepoch]
      exact h.epoch j (hother j hj hji)

end

end Keleusma
