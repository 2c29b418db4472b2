import Keleusma.Runtime.Allocation
import Keleusma.Safety.Monitor
import Keleusma.Swap.Replace

/-!
# When a failed swap leaves the machine alone

The checks before the commit point touch nothing, so a swap they refuse leaves the machine as it
was. What follows the commit point can fail too: the composites the private slots are seeded with
move into the persistent pool last, when the old module is already gone. A swap that fails there
leaves the new image behind (`commit_image`) and a reset arena (`commit_epoch`). So a failed swap
leaves the machine alone exactly when every seeded composite fits, and the arena can be reset where
execution is proven (`swap_atomic_iff`).
-/

namespace Keleusma

open KeleusmaWire (Byte)

variable {F K : Type}

/-! ## Seeds that fit -/

/-- The body of a value is live and fits the region of the pool that begins at the offset. -/
def BodyFits (env : Env F) (a : Arena) (off : ℕ) : Value F → Prop
  | .flat _ body => a.addrIsLive body.addr body.epoch = true ∧
      off + body.len ≤ env.privateCompositeSlotEnd off a.persistentCapacity ∧
      env.privateStorage + off + body.len ≤ a.persistentCapacity
  | _ => True

/-- The arena with the body of a value at an offset of the pool. -/
def withBody (env : Env F) (a : Arena) (off : ℕ) : Value F → Arena
  | .flat _ body =>
    a.write (a.base + (env.privateStorage + off)) (a.read body.addr body.len)
  | _ => a

/-- The composites among the seeds of the slots from `i` on fit, one after the other: the arena has
room to pack the seed, and the packed body fits its slot of the pool. -/
def SeedsFit (env : Env F) : ℕ → List (Value F) → Arena → Prop
  | _, [], _ => True
  | i, seed :: seeds, a =>
    match env.privateCompositePoolOffset (env.sharedSlotCount + i) with
    | none => SeedsFit env (i + 1) seeds a
    | some off =>
      match seed with
      | .unit => SeedsFit env (i + 1) seeds a
      | seed => ∃ v a', intoArenaCanonical env.fo env.widths seed a = some (v, a') ∧
          BodyFits env a' off v ∧ SeedsFit env (i + 1) seeds (withBody env a' off v)

/-- Storing a body succeeds when it fits, and only then. -/
theorem persistCompositeBody_apply (env : Env F) (kind : CompositeKind) (body : Handle) (off : ℕ)
    (s : Vm F) :
    (BodyFits env s.arena off (.flat kind body : Value F) → ∃ stored,
      persistCompositeBody env kind body off s =
        .ok (stored, { s with arena := withBody env s.arena off (.flat kind body : Value F) })) ∧
    (¬BodyFits env s.arena off (.flat kind body : Value F) →
      ∃ e, persistCompositeBody env kind body off s = .error e) := by
  unfold persistCompositeBody
  simp only [bind, StateT.bind, resolveBody_apply, BodyFits]
  by_cases hlive : s.arena.addrIsLive body.addr body.epoch = true
  · rw [if_pos hlive]
    simp only [Except.bind, get, getThe, MonadStateOf.get, StateT.get, pure, Except.pure,
      Arena.read_length]
    by_cases hend : off + body.len ≤ env.privateCompositeSlotEnd off s.arena.persistentCapacity
    · rw [if_neg (by omega)]
      by_cases hcap : env.privateStorage + off + body.len ≤ s.arena.persistentCapacity
      · rw [if_neg (by omega)]
        exact ⟨fun _ => ⟨_, rfl⟩, fun h => absurd ⟨hlive, hend, hcap⟩ h⟩
      · rw [if_pos (by omega)]
        exact ⟨fun h => absurd h.2.2 hcap, fun _ => ⟨_, rfl⟩⟩
    · rw [if_pos (by omega)]
      exact ⟨fun h => absurd h.2.1 hend, fun _ => ⟨_, rfl⟩⟩
  · rw [if_neg hlive]
    exact ⟨fun h => absurd h.1 hlive, fun _ => ⟨_, rfl⟩⟩

/-- A value that fits is written to its slot, and any other is refused. -/
theorem writeDataSlot_composite {env : Env F} {i off : ℕ}
    (hoff : env.privateCompositePoolOffset (env.sharedSlotCount + i) = some off) (v : Value F)
    (s : Vm F) :
    (BodyFits env s.arena off v →
      ∃ stored, writeDataSlot env (env.sharedSlotCount + i) v s = .ok ((),
        { s with arena := withBody env s.arena off v, privateData :=
          s.privateData.set i stored })) ∧
    (¬BodyFits env s.arena off v →
      ∃ e, writeDataSlot env (env.sharedSlotCount + i) v s = .error e) := by
  have hslot : ¬env.sharedSlotCount + i < env.sharedSlotCount := by omega
  unfold writeDataSlot
  rw [if_neg hslot, Nat.add_sub_cancel_left, hoff]
  cases v with
  | flat kind body =>
    obtain ⟨hok, herr⟩ := persistCompositeBody_apply env kind body off s
    refine ⟨fun h => ?_, fun h => ?_⟩
    · obtain ⟨stored, hstored⟩ := hok h
      refine ⟨stored, ?_⟩
      simp only [bind, StateT.bind, hstored, Except.bind]
      rfl
    · obtain ⟨e, he⟩ := herr h
      refine ⟨e, ?_⟩
      simp only [bind, StateT.bind, he, Except.bind]
  | _ => exact ⟨fun _ => ⟨_, rfl⟩, fun h => absurd trivial h⟩

/-! ## Persisting the seeds -/

section

variable {env : Env F} {i off : ℕ} {s : Vm F} {seed : Value F} {seeds : List (Value F)} {a : Arena}

theorem seedsFit_skip
    (h : env.privateCompositePoolOffset (env.sharedSlotCount + i) = none ∨ seed = .unit) :
    SeedsFit env i (seed :: seeds) a ↔ SeedsFit env (i + 1) seeds a := by
  simp only [SeedsFit]
  rcases h with h | rfl
  · simp only [h]
  · cases env.privateCompositePoolOffset (env.sharedSlotCount + i) <;> rfl

theorem seedsFit_composite
    (h : env.privateCompositePoolOffset (env.sharedSlotCount + i) = some off)
    (hseed : seed ≠ .unit) :
    SeedsFit env i (seed :: seeds) a ↔
      ∃ v a', intoArenaCanonical env.fo env.widths seed a = some (v, a') ∧
        BodyFits env a' off v ∧ SeedsFit env (i + 1) seeds (withBody env a' off v) := by
  simp only [SeedsFit, h]

theorem persistSeededSlot_skip
    (h : env.privateCompositePoolOffset (env.sharedSlotCount + i) = none ∨
      s.privateData.getD i .unit = .unit) :
    persistSeededSlot env i s = (.ok (), s) := by
  unfold persistSeededSlot
  rcases h with h | h
  · simp only [h]
  · simp only [h]
    cases env.privateCompositePoolOffset (env.sharedSlotCount + i) <;> rfl

theorem persistSeededSlot_composite
    (h : env.privateCompositePoolOffset (env.sharedSlotCount + i) = some off)
    (hseed : s.privateData.getD i .unit ≠ .unit) :
    persistSeededSlot env i s =
      let taken := { s with privateData := s.privateData.set i .unit }
      match intoArenaCanonical env.fo env.widths (s.privateData.getD i .unit) s.arena with
      | none => (.error (.outOfArena "seeded private composite"), taken)
      | some (flat, arena) =>
        match writeDataSlot env (env.sharedSlotCount + i) flat { taken with arena } with
        | .error e => (.error e, { taken with arena })
        | .ok ((), s) => (.ok (), s) := by
  rw [persistSeededSlot, h]
  cases hv : s.privateData.getD i .unit <;> first | exact absurd hv hseed | rfl

end

/-- **The seeds are persisted exactly when they fit.** -/
theorem persistSeeded_ok_iff {env : Env F} {seeds : List (Value F)} {i : ℕ} {s : Vm F}
    (hdrop : s.privateData.drop i = seeds) :
    (persistSeeded env i seeds.length s).1 = .ok () ↔ SeedsFit env i seeds s.arena := by
  induction seeds generalizing i s with
  | nil => exact ⟨fun _ => trivial, fun _ => rfl⟩
  | cons seed seeds ih =>
    have hseed : s.privateData.getD i .unit = seed := by
      rw [List.getD_eq_getElem?_getD, ← Nat.add_zero i, ← List.getElem?_drop, hdrop]
      rfl
    have htail : s.privateData.drop (i + 1) = seeds := by
      rw [← List.drop_drop, hdrop]
      rfl
    rw [List.length_cons, persistSeeded]
    cases hoff : env.privateCompositePoolOffset (env.sharedSlotCount + i) with
    | none =>
      rw [persistSeededSlot_skip (.inl hoff), seedsFit_skip (.inl hoff)]
      exact ih htail
    | some off =>
      by_cases hunit : seed = .unit
      · rw [persistSeededSlot_skip (.inr (hseed.trans hunit)), seedsFit_skip (.inr hunit)]
        exact ih htail
      · rw [persistSeededSlot_composite hoff (by rwa [hseed]), seedsFit_composite hoff hunit, hseed]
        cases hcanonical : intoArenaCanonical env.fo env.widths seed s.arena with
        | none => simp
        | some r =>
          obtain ⟨v, arena⟩ := r
          simp only [Option.some.injEq, Prod.mk.injEq, existsAndEq, true_and]
          obtain ⟨hok, herr⟩ := writeDataSlot_composite hoff v
            { s with privateData := s.privateData.set i .unit, arena }
          by_cases hfits : BodyFits env arena off v
          · obtain ⟨stored, hstored⟩ := hok hfits
            simp only [hstored, hfits, true_and]
            refine ih ?_
            rw [List.drop_set_of_lt (by omega), List.drop_set_of_lt (by omega), htail]
          · obtain ⟨e, he⟩ := herr hfits
            simp [he, hfits]

@[simp] theorem withBody_epoch (env : Env F) (a : Arena) (off : ℕ) (v : Value F) :
    (withBody env a off v).epoch = a.epoch := by
  cases v <;> rfl

/-- Persisting the seed of a slot keeps the epoch and the number of slots. -/
theorem persistSeededSlot_keeps (env : Env F) (i : ℕ) (s : Vm F) :
    (persistSeededSlot env i s).2.arena.epoch = s.arena.epoch ∧
      (persistSeededSlot env i s).2.privateData.length = s.privateData.length := by
  cases hoff : env.privateCompositePoolOffset (env.sharedSlotCount + i) with
  | none =>
    rw [persistSeededSlot_skip (.inl hoff)]
    exact ⟨rfl, rfl⟩
  | some off =>
    by_cases hunit : s.privateData.getD i .unit = .unit
    · rw [persistSeededSlot_skip (.inr hunit)]
      exact ⟨rfl, rfl⟩
    · rw [persistSeededSlot_composite hoff hunit]
      cases hcanonical : intoArenaCanonical env.fo env.widths (s.privateData.getD i .unit)
        s.arena with
      | none => exact ⟨rfl, List.length_set⟩
      | some r =>
        obtain ⟨v, arena⟩ := r
        have hepoch : arena.epoch = s.arena.epoch :=
          (Allocates.intoArenaCanonical _ hcanonical).epoch
        obtain ⟨hok, herr⟩ := writeDataSlot_composite hoff v
          { s with privateData := s.privateData.set i .unit, arena }
        by_cases hfits : BodyFits env arena off v
        · obtain ⟨stored, hstored⟩ := hok hfits
          simp only [hstored, withBody_epoch, hepoch, List.length_set, and_self]
        · obtain ⟨e, he⟩ := herr hfits
          simp only [he, hepoch, List.length_set, and_self]

/-- Persisting the seeds keeps the epoch and the number of slots. -/
theorem persistSeeded_keeps (env : Env F) (i n : ℕ) (s : Vm F) :
    (persistSeeded env i n s).2.arena.epoch = s.arena.epoch ∧
      (persistSeeded env i n s).2.privateData.length = s.privateData.length := by
  induction n generalizing i s with
  | zero => exact ⟨rfl, rfl⟩
  | succ n ih =>
    have hslot := persistSeededSlot_keeps env i s
    rw [persistSeeded]
    split
    next s' hs =>
      rw [hs] at hslot
      exact ⟨(ih (i + 1) s').1.trans hslot.1, (ih (i + 1) s').2.trans hslot.2⟩
    next e s' hs =>
      rw [hs] at hslot
      exact hslot

/-! ## After the commit point -/

section

variable (p : Platform F K) (m : ModuleFile) (seeds : List (Value F)) (new : Prepared)
  (h : Host F K)

/-- The arena and the private slots as the seeds are moved into the pool. -/
def seedingVm : Vm F := (fullReset p (install p m seeds new h)).2.vm

/-- What a swap needs after its commit point. -/
def Committable : Prop :=
  (h.executionChecks = .proven → h.vm.arena.epoch + 1 < 2 ^ 64) ∧
    SeedsFit (p.env m.toModule) 0 (seedingVm p m seeds new h).privateData
      (seedingVm p m seeds new h).arena

end

/-- What a full reset does: the stacks and the registry go, and the arena's epoch advances unless
it is saturated. -/
theorem fullReset_spec (p : Platform F K) (h : Host F K) : ∃ isReset arena,
    fullReset p h = (isReset, { h with
      vm := { h.vm with ephemeralOpaques := [], stack := [], frames := [], arena } }) ∧
    (isReset = true ↔ h.vm.arena.epoch + 1 < 2 ^ 64) ∧
    (isReset = true → arena.epoch = h.vm.arena.epoch + 1) := by
  unfold fullReset Arena.resetUnchecked
  by_cases hepoch : h.vm.arena.epoch + 1 < 2 ^ 64
  · simp only [if_pos hepoch]
    refine ⟨true, _, rfl, iff_of_true rfl hepoch, fun _ => ?_⟩
    rw [Arena.reserve_epoch, Arena.reserve_epoch, Arena.reserve_epoch]
  · simp only [if_neg hepoch]
    exact ⟨false, h.vm.arena, rfl, iff_of_false nofun hepoch, nofun⟩

theorem length_privateInit (p : Platform F K) (seeds : List (Value F)) (inits : List ConstValue) :
    (privateInit p seeds inits).length = seeds.length := by
  induction seeds generalizing inits with
  | nil => cases inits <;> rfl
  | cons seed seeds ih =>
    cases inits with
    | nil => rfl
    | cons c inits => rw [privateInit, List.length_cons, List.length_cons, ih]

section

variable {p : Platform F K} {m : ModuleFile} {seeds : List (Value F)} {new : Prepared}
  {h : Host F K}

/-- **Past the commit point a swap succeeds exactly when the seeds fit**, and the arena could be
reset where execution is proven. -/
theorem commit_ok_iff (hlength : seeds.length = new.privateSlots) :
    (commit p m seeds new h).1 = .ok () ↔ Committable p m seeds new h := by
  obtain ⟨isReset, arena, hreset, hiff, -⟩ := fullReset_spec p (install p m seeds new h)
  have hchecks : (install p m seeds new h).executionChecks = h.executionChecks := rfl
  have hepoch : (install p m seeds new h).vm.arena.epoch = h.vm.arena.epoch := rfl
  have hdata : (install p m seeds new h).vm.privateData.length = new.privateSlots :=
    (length_privateInit p seeds _).trans hlength
  rw [hepoch] at hiff
  unfold commit Committable seedingVm
  rw [hreset]
  simp only [hchecks]
  by_cases hsaturated : h.executionChecks = .proven ∧ isReset = false
  · rw [if_pos hsaturated]
    refine iff_of_false nofun fun hcommit => ?_
    rw [hiff.2 (hcommit.1 hsaturated.1)] at hsaturated
    exact absurd hsaturated.2 nofun
  · rw [if_neg hsaturated]
    have hfirst : h.executionChecks = .proven → h.vm.arena.epoch + 1 < 2 ^ 64 := by
      intro hproven
      cases isReset with
      | true => exact hiff.1 rfl
      | false => exact absurd ⟨hproven, rfl⟩ hsaturated
    have hpersist := @persistSeeded_ok_iff F (p.env m.toModule)
      (install p m seeds new h).vm.privateData 0 { (install p m seeds new h).vm with
        ephemeralOpaques := [], stack := [], frames := [], arena } List.drop_zero
    rw [and_iff_right hfirst, ← hpersist, hdata]
    split
    next e vm hp => rw [hp]; exact iff_of_false nofun nofun
    next vm hp => rw [hp]; exact iff_of_true rfl rfl

/-- A swap that succeeds has persisted the seeds. -/
theorem commit_ok {h' : Host F K} (hok : commit p m seeds new h = (.ok (), h')) :
    ∃ vm, persistSeeded (p.env m.toModule) 0 new.privateSlots (seedingVm p m seeds new h) =
        (.ok (), vm) ∧
      h'.vm = { vm with started := false } ∧ h'.image.file = m := by
  obtain ⟨isReset, arena, hreset, -, -⟩ := fullReset_spec p (install p m seeds new h)
  unfold commit at hok
  unfold seedingVm
  rw [hreset] at hok ⊢
  dsimp only at hok ⊢
  split at hok
  · cases hok
  · split at hok
    · cases hok
    next vm hpersist =>
      cases hok
      exact ⟨vm, hpersist, rfl, rfl⟩

/-- **A swap past the commit point leaves the new image behind**, whatever its result. -/
theorem commit_image : (commit p m seeds new h).2.image = ⟨new.bytes, m⟩ := by
  obtain ⟨isReset, arena, hreset, -, -⟩ := fullReset_spec p (install p m seeds new h)
  unfold commit
  rw [hreset]
  simp only
  split
  · rfl
  · split <;> rfl

/-- A swap past the commit point starts a new epoch of the arena, unless it is saturated. -/
theorem commit_epoch (hepoch : h.vm.arena.epoch + 1 < 2 ^ 64) :
    (commit p m seeds new h).2.vm.arena.epoch = h.vm.arena.epoch + 1 := by
  obtain ⟨isReset, arena, hreset, hiff, hnext⟩ := fullReset_spec p (install p m seeds new h)
  have harena : arena.epoch = h.vm.arena.epoch + 1 := hnext (hiff.2 hepoch)
  unfold commit
  rw [hreset]
  simp only
  split
  · exact harena
  · have hpersist := (persistSeeded_keeps (p.env m.toModule) 0 new.privateSlots
      { (install p m seeds new h).vm with
        ephemeralOpaques := [], stack := [], frames := [], arena }).1
    split
    next e vm hp =>
      rw [hp] at hpersist
      exact hpersist.trans harena
    next vm hp =>
      rw [hp] at hpersist
      exact hpersist.trans harena

/-- What the checks of a swap have established. -/
structure Checked (p : Platform F K) (m : ModuleFile) (seeds : List (Value F)) (new : Prepared)
    (h : Host F K) : Prop where
  verified : verify m.toModule = .ok ()
  counted : countSlots (m.dataLayout.elim [] (·.slots)) 0 0 =
    .ok (new.sharedSlots, new.privateSlots)
  length : seeds.length = new.privateSlots
  room : checkPersistent p h.vm.arena m.toModule new.privateSlots = .ok ()

/-- A prepared swap has passed its checks. -/
theorem prepare_checked (hprepare : prepare p m seeds h = .ok new) :
    Checked p m seeds new h := by
  obtain ⟨_, -, hprepare⟩ := bind_eq_ok hprepare
  obtain ⟨_, -, hprepare⟩ := bind_eq_ok hprepare
  obtain ⟨_, hverify, hprepare⟩ := bind_eq_ok hprepare
  obtain ⟨_, -, hprepare⟩ := bind_eq_ok hprepare
  obtain ⟨⟨shared, priv⟩, hcount, hprepare⟩ := bind_eq_ok hprepare
  obtain ⟨_, hseeds, hprepare⟩ := bind_eq_ok hprepare
  obtain ⟨_, hroom, hprepare⟩ := bind_eq_ok hprepare
  obtain ⟨_, -, hprepare⟩ := bind_eq_ok hprepare
  obtain ⟨_, -, hprepare⟩ := bind_eq_ok hprepare
  obtain ⟨_, -, hprepare⟩ := bind_eq_ok hprepare
  obtain ⟨_, -, hprepare⟩ := bind_eq_ok hprepare
  obtain ⟨_, -, hprepare⟩ := bind_eq_ok hprepare
  cases hprepare
  refine ⟨mapError_eq_ok hverify, hcount, ?_, hroom⟩
  unfold checkSeeds at hseeds
  split at hseeds
  · cases hseeds
  next hlength => exact not_not.1 hlength

end

/-! ## The calls of the host -/

/-- The module a call asks for, once it is authenticated and its schema is accepted. -/
def SwapCall.accept (p : Platform F K) (h : Host F K) : SwapCall → Except SwapError ModuleFile
  | .replace m => do
    refuseUnsignedSwapUnderTrust h
    if h.image.file.schemaHash ≠ m.schemaHash then
      .error (.schemaMismatch h.image.file.schemaHash m.schemaHash)
    else .ok m
  | .replaceUnchecked m => do
    refuseUnsignedSwapUnderTrust h
    return m
  | .replaceFromBytes bytes => do
    let m ← (authenticate p bytes h).mapError .load
    if h.image.file.schemaHash ≠ m.schemaHash then
      .error (.schemaMismatch h.image.file.schemaHash m.schemaHash)
    else .ok m

/-- **Every call admits a module or leaves the machine alone.** -/
theorem SwapCall.run_eq (p : Platform F K) (seeds : List (Value F)) (h : Host F K)
    (call : SwapCall) :
    call.run p seeds h = match call.accept p h with
      | .error e => (.error e, h)
      | .ok m => replaceModuleInner p m seeds h := by
  cases call with
  | replace m =>
    simp only [SwapCall.run, SwapCall.accept, replaceModule, replaceModuleSchemaChecked]
    cases refuseUnsignedSwapUnderTrust h with
    | error e => rfl
    | ok u =>
      by_cases hschema : h.image.file.schemaHash ≠ m.schemaHash
      · simp only [bind, Except.bind, if_pos hschema]
      · simp only [bind, Except.bind, if_neg hschema]
  | replaceUnchecked m =>
    simp only [SwapCall.run, SwapCall.accept, replaceModuleUnchecked]
    cases refuseUnsignedSwapUnderTrust h <;> rfl
  | replaceFromBytes bytes =>
    simp only [SwapCall.run, SwapCall.accept, replaceModuleFromBytes, replaceModuleSchemaChecked]
    cases authenticate p bytes h with
    | error e => rfl
    | ok m =>
      by_cases hschema : h.image.file.schemaHash ≠ m.schemaHash
      · simp only [bind, Except.bind, Except.mapError, if_pos hschema]
      · simp only [bind, Except.bind, Except.mapError, if_neg hschema]

/-! ## Atomicity -/

/-- A swap that fails leaves the machine exactly as it was. -/
def SwapCall.Atomic (p : Platform F K) (seeds : List (Value F)) (h : Host F K) (call : SwapCall) :
    Prop :=
  ∀ e, (call.run p seeds h).1 = .error e → (call.run p seeds h).2 = h

/-- The swap is refused by a check before the commit point, or nothing can fail after it. -/
def SwapCall.Clean (p : Platform F K) (seeds : List (Value F)) (h : Host F K) (call : SwapCall) :
    Prop :=
  ∀ m new, call.accept p h = .ok m → prepare p m seeds h = .ok new →
    Committable p m seeds new h

/-- **A failed swap leaves the machine alone exactly when it cannot fail past its commit point.**
The epoch is one that can still advance for the converse: a saturated arena is not reset. -/
theorem swap_atomic_iff (p : Platform F K) (seeds : List (Value F)) (h : Host F K)
    (call : SwapCall) :
    (call.Clean p seeds h → call.Atomic p seeds h) ∧
      (h.vm.arena.epoch + 1 < 2 ^ 64 → call.Atomic p seeds h → call.Clean p seeds h) := by
  rw [SwapCall.Atomic, SwapCall.run_eq]
  cases haccepted : call.accept p h with
  | error e =>
    refine ⟨fun _ _ _ => rfl, fun _ _ m new hm _ => ?_⟩
    rw [haccepted] at hm
    cases hm
  | ok m =>
    cases hprepare : prepare p m seeds h with
    | error e =>
      simp only [replaceModuleInner, hprepare]
      refine ⟨fun _ _ _ => trivial, fun _ _ m' new hm hnew => ?_⟩
      rw [haccepted] at hm
      cases hm
      rw [hprepare] at hnew
      cases hnew
    | ok new =>
      simp only [replaceModuleInner, hprepare]
      have hiff := @commit_ok_iff _ _ p m seeds new h (prepare_checked hprepare).length
      refine ⟨fun hclean e he => ?_, fun hepoch hatomic m' new' hm hnew => ?_⟩
      · rw [hiff.2 (hclean m new haccepted hprepare)] at he
        cases he
      · rw [haccepted] at hm
        cases hm
        rw [hprepare] at hnew
        cases hnew
        by_contra hfails
        cases hresult : (commit p m seeds new h).1 with
        | ok u => exact hfails (hiff.1 hresult)
        | error e =>
          have hsame : (commit p m seeds new h).2 = h := hatomic e hresult
          have hadvanced := @commit_epoch _ _ p m seeds new h hepoch
          rw [hsame] at hadvanced
          omega

/-! ## A seed that is too large -/

/-- A module with one private slot, a pair of words. -/
def pairFile : ModuleFile where
  toModule := { plainModule [plainChunk [.pushImmediate 1, .return] .func 0 0] with
    dataLayout := some
      ⟨[⟨"state.pair", .privateSlot⟩], [], [⟨0, 0⟩], [.tuple [.int 0, .int 0]]⟩
    persistentCompositeBytes := 16 }
  flags := 0
  schemaHash := 7
  auxArenaBytes := 0

/-- A platform on which every module has an image and fits. -/
def roomyPlatform : Platform Unit Unit where
  base := plainEnv pairFile.toModule
  addressBitsLog2 := 6
  floatBitsLog2 := 6
  valueAlign := 8
  callFrame := ⟨24, 8⟩
  arc := ⟨16, 8⟩
  verifyStrict _ _ _ := false
  resourceBounds _ _ := .ok ()
  runtimeFootprint _ := some (1, 1)
  toBytes _ := .ok []
  fromBytes _ := .error .truncated
  decodeAllOps _ := .ok [[.pushImmediate 1, .return]]
  resolveAux _ := .ok ()

/-- A machine that runs `pairFile` and has stored a pair. -/
def pairHost : Host Unit Unit where
  image := ⟨[], pairFile⟩
  decodedOps := [[.pushImmediate 1, .return]]
  sharedSlotCount := 0
  privateSlotCount := 1
  vm := { freshVm with
    arena := ⟨4096, 4096, 48, 48, 4096, 1, fun _ => 0⟩
    privateData := [.flat .tuple ⟨4128, 16, 1⟩] }
  constPool := [[]]
  reserved := ⟨4, 1, 0⟩
  nativeClassificationsVerified := true
  verifyingKeys := []
  trapPolicy := .allow
  executionChecks := .checked
  proofState := .inactive
  popProof := false
  elidePops := false

set_option maxRecDepth 8000 in
/-- A seed of three words does not fit the slot of a pair. The swap fails, and the old pair is
lost. -/
theorem three_words_not_atomic :
    ¬(SwapCall.replace pairFile).Atomic roomyPlatform [.tuple [.int 1, .int 2, .int 3]]
        pairHost ∧
      pairHost.vm.privateData.all Value.isUnit = false ∧
      ((SwapCall.replace pairFile).run roomyPlatform [.tuple [.int 1, .int 2, .int 3]]
        pairHost).2.vm.privateData.all Value.isUnit = true := by
  have hfails : ((SwapCall.replace pairFile).run roomyPlatform
      [.tuple [.int 1, .int 2, .int 3]] pairHost).1.isOk = false := by decide +kernel
  have hlost : ((SwapCall.replace pairFile).run roomyPlatform
      [.tuple [.int 1, .int 2, .int 3]] pairHost).2.vm.privateData.all Value.isUnit = true := by
    decide +kernel
  refine ⟨fun hatomic => ?_, rfl, hlost⟩
  cases hresult : ((SwapCall.replace pairFile).run roomyPlatform
      [.tuple [.int 1, .int 2, .int 3]] pairHost).1 with
  | ok u =>
    rw [hresult] at hfails
    cases hfails
  | error e =>
    rw [hatomic e hresult] at hlost
    cases hlost

set_option maxRecDepth 8000 in
/-- A seed of two words fits. -/
theorem two_words_atomic :
    (SwapCall.replace pairFile).Clean roomyPlatform [.tuple [.int 1, .int 2]] pairHost ∧
      (SwapCall.replace pairFile).Atomic roomyPlatform [.tuple [.int 1, .int 2]] pairHost := by
  have hswaps : ((SwapCall.replace pairFile).run roomyPlatform
      [.tuple [.int 1, .int 2]] pairHost).1.isOk = true := by decide +kernel
  have hclean := (swap_atomic_iff roomyPlatform [.tuple [.int 1, .int 2]] pairHost
    (.replace pairFile)).2 (by decide) fun e he => by
      rw [he] at hswaps
      cases hswaps
  exact ⟨hclean, (swap_atomic_iff _ _ _ _).1 hclean⟩

end Keleusma
