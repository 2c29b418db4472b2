import Keleusma.Store.Layout
import Keleusma.Swap.Atomicity
import Keleusma.Swap.Construct

/-!
# The first values of private slots

A construction and a swap fill the private slots with initial values and seeds, and move those of
composite slots into the pool, one after the other. Each counts as the first store to its slot
(`seedLedger`): the canonical form of the seed where it moves, and the seed as it is elsewhere.
When the move succeeds, the machine remembers them all (`Remembers.seeds`).

A reset of the whole arena is calm too, since the platform aligns what it reserves
(`Platform.Calm`).
-/

namespace Keleusma

variable {F K : Type}

/-! ## The platform -/

/-- The natives use the arena calmly, and the types of the machine have alignments. -/
structure Platform.Calm (p : Platform F K) : Prop where
  natives : p.base.CalmNatives
  value : 0 < p.valueAlign
  callFrame : 0 < p.callFrame.align
  arc : 0 < p.arc.align

/-- Allocating at the bottom end is calm. -/
theorem Arena.calm_allocBottom {a a' : Arena} {size align : ℕ} (halign : 0 < align)
    (h : a.allocBottom size align = some a') : a.Calm a' := by
  unfold Arena.allocBottom at h
  dsimp only at h
  split at h
  next hfits =>
    cases h
    have hround : a.base + a.bottomTop ≤
        (a.base + a.bottomTop + (align - 1)) / align * align := by
      have hdiv := Nat.div_add_mod (a.base + a.bottomTop + (align - 1)) align
      have hmod := Nat.mod_lt (a.base + a.bottomTop + (align - 1)) halign
      rw [Nat.mul_comm] at hdiv
      omega
    refine ⟨rfl, rfl, rfl, fun ho => ⟨ho.persistent, ?_, ho.topTop⟩, le_refl _,
      fun _ _ _ => rfl, fun _ => le_refl _, fun _ _ _ _ => rfl⟩
    have hbottom := ho.bottomTop
    dsimp only
    omega
  · cases h

theorem Arena.calm_reserve (a : Arena) (n : ℕ) {e : ElementLayout} (halign : 0 < e.align) :
    a.Calm (a.reserve n e) := by
  unfold Arena.reserve
  split
  · exact .refl a
  · cases halloc : a.allocBottom (n * e.size) e.align with
    | none => exact .refl a
    | some a' => exact Arena.calm_allocBottom halign halloc

theorem Arena.calm_preSizedBottomVec {a a' : Arena} {n : ℕ} {e : ElementLayout}
    (halign : 0 < e.align) (h : a.preSizedBottomVec n e = .ok a') : a.Calm a' := by
  unfold Arena.preSizedBottomVec at h
  split at h
  · cases h
    exact .refl a
  · split at h
    · cases h
    next halloc =>
      cases h
      exact Arena.calm_allocBottom halign halloc

/-- **A reset of the whole arena is calm.** -/
theorem fullReset_calm {p : Platform F K} (hp : p.Calm) (h : Host F K) :
    h.vm.Kept (fullReset p h).2.vm := by
  unfold fullReset Arena.resetUnchecked
  dsimp only
  split
  next heq =>
    split at heq
    · cases heq
    · exact ⟨.refl _, rfl⟩
  next a heq =>
    split at heq
    · cases heq
      have hreset : h.vm.arena.Calm { h.vm.arena with
          bottomTop := h.vm.arena.persistentCapacity, topTop := h.vm.arena.capacity,
          epoch := h.vm.arena.epoch + 1 } :=
        .newEpoch rfl rfl rfl (fun ho => ⟨ho.persistent, le_refl _, le_refl _⟩)
          (Nat.lt_succ_self _) rfl
      refine ⟨hreset.trans ?_, rfl⟩
      exact ((Arena.calm_reserve _ _ hp.value).trans (Arena.calm_reserve _ _ hp.callFrame)).trans
        (Arena.calm_reserve _ _ hp.arc)
    · cases heq

/-! ## Seeds as stores -/

section

variable (env : Env F)

/-- What the move of a seed stores to its slot, and the arena it is stored in. -/
def seedStore (i : ℕ) (s : Vm F) : Value F × Arena :=
  let seeded := s.privateData.getD i .unit
  match env.privateCompositePoolOffset (env.sharedSlotCount + i), seeded with
  | none, _ | _, .unit => (seeded, s.arena)
  | some _, _ => (intoArenaCanonical env.fo env.widths seeded s.arena).getD (seeded, s.arena)

/-- What the slots from `i` on are seeded with counts as stored to them. -/
def seedLedger : ℕ → ℕ → Vm F → (ℕ → Record F) → ℕ → Record F
  | _, 0, _, last => last
  | i, n + 1, s, last =>
    let (v, a) := seedStore env i s
    seedLedger (i + 1) n (persistSeededSlot env i s).2 (Function.update last i (v.record a))

/-- The seeds of the slots from `i` on can be stored. -/
def SeedsStorable : ℕ → ℕ → Vm F → Prop
  | _, 0, _ => True
  | i, n + 1, s =>
    Storable env (seedStore env i s).2 (env.sharedSlotCount + i) (seedStore env i s).1 ∧
      SeedsStorable (i + 1) n (persistSeededSlot env i s).2

end

section

variable {env : Env F} {i n : ℕ} {s s' : Vm F} {slots : Set ℕ} {last : ℕ → Record F}

/-- A slot that is not remembered may change. -/
theorem Remembers.set (h : Remembers env slots s last) (hi : i ∉ slots) (v : Value F) :
    Remembers env slots { s with privateData := s.privateData.set i v } last := by
  have hother : ∀ j ∈ slots, ∀ w, (s.privateData.set i v)[j]? = some w →
      s.privateData[j]? = some w := fun j hj w hw => by
    rwa [List.getElem?_set_ne (fun heq : i = j => hi (heq ▸ hj))] at hw
  exact ⟨h.ordered, h.laid, fun j hj w hw => h.placed j hj w (hother j hj w hw),
    fun j hj w hw => h.shows j hj w (hother j hj w hw), h.epoch⟩

theorem List.set_getD_self {α : Type} (l : List α) (i : ℕ) (d : α) : l.set i (l.getD i d) = l := by
  refine List.ext_getElem? fun j => ?_
  rw [List.getElem?_set]
  split
  next heq =>
    subst heq
    split
    next hlt => rw [List.getD_eq_getElem?_getD, List.getElem?_eq_getElem hlt, Option.getD_some]
    next hge => rw [List.getElem?_eq_none (not_lt.1 hge)]
  · rfl

/-- The move of one seed is a store. -/
theorem Remembers.seed (h : Remembers env slots s last) (hi : i ∉ slots)
    (hstorable : Storable env (seedStore env i s).2 (env.sharedSlotCount + i)
      (seedStore env i s).1)
    (hok : persistSeededSlot env i s = (.ok (), s')) :
    Remembers env (insert i slots) s'
      (Function.update last i ((seedStore env i s).1.record (seedStore env i s).2)) := by
  cases hoff : env.privateCompositePoolOffset (env.sharedSlotCount + i) with
  | none =>
    rw [persistSeededSlot_skip (.inl hoff)] at hok
    cases hok
    have hstore : seedStore env i s = (s.privateData.getD i .unit, s.arena) := by
      unfold seedStore
      rw [hoff]
    rw [hstore] at hstorable ⊢
    have hsame : Wrote env i s (s.privateData.getD i .unit)
        { s with privateData := s.privateData.set i (s.privateData.getD i .unit) } :=
      .plain fun _ _ _ => hoff
    rw [List.set_getD_self] at hsame
    exact h.write hstorable hsame
  | some off =>
    by_cases hunit : s.privateData.getD i .unit = .unit
    · rw [persistSeededSlot_skip (.inr hunit)] at hok
      cases hok
      have hstore : seedStore env i s = (.unit, s.arena) := by
        unfold seedStore
        rw [hoff, hunit]
      rw [hstore] at hstorable ⊢
      have hsame : Wrote env i s .unit { s with privateData := s.privateData.set i .unit } :=
        .plain nofun
      rw [← hunit, List.set_getD_self, hunit] at hsame
      exact h.write hstorable hsame
    · rw [persistSeededSlot_composite hoff hunit] at hok
      have hstore : seedStore env i s = (intoArenaCanonical env.fo env.widths
          (s.privateData.getD i .unit) s.arena).getD (s.privateData.getD i .unit, s.arena) := by
        unfold seedStore
        rw [hoff]
        cases hv : s.privateData.getD i .unit <;> first | exact absurd hv hunit | rfl
      rw [hstore] at hstorable ⊢
      cases hcanonical : intoArenaCanonical env.fo env.widths (s.privateData.getD i .unit)
          s.arena with
      | none =>
        rw [hcanonical] at hok
        cases hok
      | some r =>
        obtain ⟨v, arena⟩ := r
        rw [hcanonical] at hok hstorable
        dsimp only [Option.getD_some] at hok hstorable ⊢
        have hkept : Vm.Kept { s with privateData := s.privateData.set i .unit }
            { s with privateData := s.privateData.set i .unit, arena } :=
          ⟨(Allocates.intoArenaCanonical _ hcanonical).calm, rfl⟩
        split at hok
        · cases hok
        next s₁ hwrite =>
          cases hok
          exact ((h.set hi .unit).kept hkept).write hstorable (writeDataSlot_ok hwrite)

/-- **The machine remembers its seeds.** -/
theorem Remembers.seeds (h : Remembers env (Set.Iio i) s last) (hseeds : SeedsStorable env i n s)
    (hok : persistSeeded env i n s = (.ok (), s')) :
    Remembers env (Set.Iio (i + n)) s' (seedLedger env i n s last) := by
  induction n generalizing i s last with
  | zero =>
    cases hok
    exact h
  | succ n ih =>
    obtain ⟨hstorable, hseeds⟩ := hseeds
    rw [persistSeeded] at hok
    split at hok
    next s₁ hslot =>
      have hnext := h.seed (fun hlt => lt_irrefl i hlt) hstorable hslot
      have hinsert : insert i (Set.Iio i) = Set.Iio (i + 1) := by
        ext j
        simp only [Set.mem_insert_iff, Set.mem_Iio]
        omega
      rw [hinsert] at hnext
      rw [hslot] at hseeds
      have hrest := ih hnext hseeds hok
      rw [Nat.add_assoc, Nat.add_comm 1 n] at hrest
      unfold seedLedger
      rw [hslot]
      exact hrest
    · cases hok

end

end Keleusma
