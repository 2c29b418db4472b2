import Mathlib.Data.List.Pairwise
import Keleusma.Store.Slots
import Keleusma.Verify.Accepted

/-!
# The layout of an accepted module

The typed pass accepts a table of the pool only when its slots and their offsets ascend, so an
accepted module gives its composite slots regions of their own. With the checks of a construction
or a swap, which make room for the slots and the pool, the pool is laid as stores need it
(`poolLaid_of_verify`).
-/

namespace Keleusma

variable {F K : Type}

/-! ## The table of the pool -/

/-- One composite slot comes before another in both orders. -/
def PrivateCompositeSlot.Before (e e' : PrivateCompositeSlot) : Prop :=
  e.slot < e'.slot ∧ e.offset < e'.offset

theorem validatePrivateComposites_ok {dataLen pool index : ℕ} {prev : Option PrivateCompositeSlot}
    {table : List PrivateCompositeSlot}
    (h : validatePrivateComposites dataLen pool index prev table = .ok ()) :
    (∀ e ∈ table, e.offset < pool) ∧ (prev.toList ++ table).Pairwise PrivateCompositeSlot.Before := by
  induction table generalizing index prev with
  | nil =>
    refine ⟨nofun, ?_⟩
    cases prev with
    | none => exact .nil
    | some p => exact List.pairwise_singleton _ _
  | cons e table ih =>
    unfold validatePrivateComposites at h
    dsimp only at h
    split_ifs at h with hslot hpool hslots hoffsets
    · cases h
    · cases h
    · cases h
    · cases h
    obtain ⟨hrange, hascending⟩ := ih h
    refine ⟨fun e' he' => ?_, ?_⟩
    · obtain rfl | hmem := List.mem_cons.1 he'
      · exact not_le.1 hpool
      · exact hrange e' hmem
    · cases prev with
      | none => exact hascending
      | some p =>
        simp only [Option.any_some, decide_eq_true_eq, not_le] at hslots hoffsets
        have hfirst : p.Before e := ⟨hslots, hoffsets⟩
        refine List.pairwise_cons.2 ⟨fun e' he' => ?_, hascending⟩
        obtain rfl | hmem := List.mem_cons.1 he'
        · exact hfirst
        · have hnext := (List.pairwise_cons.1 hascending).1 e' hmem
          exact ⟨hfirst.1.trans hnext.1, hfirst.2.trans hnext.2⟩

/-- Different entries of an ascending table have different offsets. -/
theorem apart_of_ascending {table : List PrivateCompositeSlot} (h : table.Pairwise PrivateCompositeSlot.Before)
    {slot slot' off off' : ℕ} (hmem : ⟨slot, off⟩ ∈ table) (hmem' : ⟨slot', off'⟩ ∈ table)
    (hne : slot ≠ slot') : off ≠ off' := by
  have hoffsets : table.Pairwise fun e e' => e.offset ≠ e'.offset := h.imp fun hlt => hlt.2.ne
  have : Std.Symm fun e e' : PrivateCompositeSlot => e.offset ≠ e'.offset := ⟨fun _ _ => Ne.symm⟩
  exact hoffsets.forall hmem hmem' fun heq => hne (congrArg PrivateCompositeSlot.slot heq)

/-! ## Counting the slots -/

/-- Counting the slots of a layout finds what the runtime counts. -/
theorem countSlots_ok {slots : List DataSlot} {shared priv shared' priv' : ℕ}
    (h : countSlots slots shared priv = .ok (shared', priv')) :
    priv' = priv + (slots.filter (·.visibility == .privateSlot)).length := by
  induction slots generalizing shared priv with
  | nil =>
    cases h
    rfl
  | cons slot slots ih =>
    unfold countSlots at h
    cases hvisibility : slot.visibility with
    | sharedSlot =>
      rw [hvisibility] at h
      dsimp only at h
      split at h
      · cases h
      · rw [ih h, List.filter_cons_of_neg (by rw [hvisibility]; exact nofun)]
    | privateSlot =>
      rw [hvisibility] at h
      dsimp only at h
      split at h
      · cases h
      · rw [ih h, List.filter_cons_of_pos (by rw [hvisibility]; rfl), List.length_cons]
        omega

/-- The slots a construction or a swap counts are those of the module. -/
theorem countSlots_env {p : Platform F K} {m : Module} {shared priv : ℕ}
    (h : countSlots (m.dataLayout.elim [] (·.slots)) 0 0 = .ok (shared, priv)) :
    priv = (p.env m).privateSlotCount := by
  rw [countSlots_ok h, Nat.zero_add]
  unfold Env.privateSlotCount Platform.env
  cases m.dataLayout <;> rfl

/-! ## The pool -/

/-- **An accepted module has its pool laid** in an arena that the checks let pass. -/
theorem poolLaid_of_verify {p : Platform F K} {m : Module} {a : Arena} {priv : ℕ}
    (hverify : verify m = .ok ()) (hpriv : priv = (p.env m).privateSlotCount)
    (hroom : checkPersistent p a m priv = .ok ()) :
    (p.env m).PoolLaid a.persistentCapacity := by
  have hstorage : (p.env m).privateStorage + m.persistentCompositeBytes ≤ a.persistentCapacity := by
    unfold checkPersistent at hroom
    dsimp only at hroom
    split at hroom
    · cases hroom
    next hle =>
      rw [hpriv] at hle
      exact not_lt.1 hle
  have htable : ∀ layout, m.dataLayout = some layout →
      (∀ e ∈ layout.privateCompositeLayout, e.offset < m.persistentCompositeBytes) ∧
        layout.privateCompositeLayout.Pairwise PrivateCompositeSlot.Before := by
    intro layout hlayout
    obtain ⟨_, hdata, -⟩ := bind_eq_ok (verify_accepted hverify).2
    unfold validateDataLayout at hdata
    rw [hlayout] at hdata
    dsimp only at hdata
    split at hdata
    · cases hdata
    split at hdata
    · cases hdata
    obtain ⟨_, -, hdata⟩ := bind_eq_ok hdata
    exact validatePrivateComposites_ok hdata
  refine ⟨fun slot slot' off off' hoff hoff' hne => ?_, fun slot off hoff => ?_⟩
  · obtain ⟨layout, hlayout, hmem⟩ := (p.env m).privateCompositePoolOffset_mem hoff
    obtain ⟨layout', hlayout', hmem'⟩ := (p.env m).privateCompositePoolOffset_mem hoff'
    rw [hlayout] at hlayout'
    cases hlayout'
    exact apart_of_ascending (htable layout hlayout).2 hmem hmem' hne
  · obtain ⟨layout, hlayout, hmem⟩ := (p.env m).privateCompositePoolOffset_mem hoff
    have hlt := (htable layout hlayout).1 _ hmem
    dsimp only at hlt
    omega

end Keleusma
