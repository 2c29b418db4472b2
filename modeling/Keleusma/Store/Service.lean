import Keleusma.Store.Access
import Keleusma.Store.Seeds

/-!
# Private data is a store

A machine in service runs through the calls and resumes of its host, steps, faults, recoveries and
hot swaps, and every store to a private slot is noted in a ledger (`Serves`). The ledger and the
machine agree throughout: what a read of a private slot pushes has the content that the ledger
notes for the slot, and a store to one slot changes no other (`private_data_store`).

The one exception is text in the reclaimable region: a reset takes its bytes, and the slot is left
with a stale handle. `stale_text` is a machine that reads one.
-/

namespace Keleusma

open StackEffect

variable {F K : Type}

/-! ## Machines in service -/

/-- The environment that the machine runs in. -/
def Host.env (p : Platform F K) (h : Host F K) : Env F := p.env h.image.file.toModule

/-- Note a store in the ledger. -/
def noted (store : Option (ℕ × Value F)) (a : Arena) (last : ℕ → Record F) : ℕ → Record F :=
  match store with
  | none => last
  | some (i, v) => Function.update last i (v.record a)

/-- The ledger before the first store. -/
def emptyLedger : ℕ → Record F := fun _ => ⟨⟨.unit, []⟩, 0⟩

/-- A store of a step can be stored. -/
def StoreFits (env : Env F) (a : Arena) (store : Option (ℕ × Value F)) : Prop :=
  ∀ i v, store = some (i, v) → Storable env a (env.sharedSlotCount + i) v

/-- The machines that a host can bring about, and what was last stored to their private slots. A
step that fails keeps private data, or has carried out its store before it fails. -/
inductive Serves (p : Platform F K) : Host F K → (ℕ → Record F) → Prop
  | new {m : ModuleFile} {policy : TrapPolicy} {a : Arena} {fresh h : Host F K} (ha : a.Ordered)
      (hfresh : constructFresh p m a = .ok fresh) (hnew : newMachine p m policy a = .ok h)
      (hfits : SeedsStorable (p.env m.toModule) 0 fresh.privateSlotCount fresh.vm) :
      Serves p h
        (seedLedger (p.env m.toModule) 0 fresh.privateSlotCount fresh.vm emptyLedger)
  | call {h : Host F K} {last : ℕ → Record F} {vm : Vm F} (c : ℕ) (shared : List UInt8)
      (args : List (Value F)) (hserves : Serves p h last)
      (hcall : callFunction (h.env p) c shared args h.vm = .ok ((), vm)) :
      Serves p { h with vm } last
  | resume {h : Host F K} {last : ℕ → Record F} {vm : Vm F} (shared : List UInt8)
      (input : Value F) (hserves : Serves p h last)
      (hresume : Keleusma.resume (h.env p) shared input h.vm = .ok ((), vm)) :
      Serves p { h with vm } last
  | step {h : Host F K} {last : ℕ → Record F} {vm : Vm F} {o : Outcome F}
      (hserves : Serves p h last) (hstep : Keleusma.step (h.env p) h.vm = .ok (o, vm))
      (hfits : StoreFits (h.env p) h.vm.arena (dueStore (h.env p) h.vm)) :
      Serves p { h with vm } (noted (dueStore (h.env p) h.vm) h.vm.arena last)
  | fault {h : Host F K} {last : ℕ → Record F} {vm : Vm F} {e : VmError}
      (hserves : Serves p h last)
      (hfault : Keleusma.step (h.env p) h.vm = .error e ∨
        (∃ c shared args, callFunction (h.env p) c shared args h.vm = .error e) ∨
        ∃ shared input, Keleusma.resume (h.env p) shared input h.vm = .error e)
      (hkept : h.vm.Kept vm) : Serves p { h with vm } last
  | faultAfterStore {h : Host F K} {last : ℕ → Record F} {stored vm : Vm F} {e : VmError} {i : ℕ}
      {v : Value F} (hserves : Serves p h last)
      (hfault : Keleusma.step (h.env p) h.vm = .error e)
      (hstore : dueStore (h.env p) h.vm = some (i, v)) (hi : i < (h.env p).privateSlotCount)
      (hfits : StoreFits (h.env p) h.vm.arena (dueStore (h.env p) h.vm))
      (hwrite : writeDataSlot (h.env p) ((h.env p).sharedSlotCount + i) v h.vm = .ok ((), stored))
      (hkept : stored.Kept vm) :
      Serves p { h with vm } (noted (dueStore (h.env p) h.vm) h.vm.arena last)
  | resetAfterError {h : Host F K} {last : ℕ → Record F} (hserves : Serves p h last) :
      Serves p (Keleusma.resetAfterError p h) last
  | swap {h h' : Host F K} {last : ℕ → Record F} {call : SwapCall} {m : ModuleFile}
      {seeds : List (Value F)} {prepared : Prepared} (hserves : Serves p h last)
      (haccepted : call.accept p h = .ok m) (hprepare : prepare p m seeds h = .ok prepared)
      (hswap : call.run p seeds h = (.ok (), h'))
      (hfits : SeedsStorable (p.env m.toModule) 0 prepared.privateSlots
        (seedingVm p m seeds prepared h)) :
      Serves p h' (seedLedger (p.env m.toModule) 0 prepared.privateSlots
        (seedingVm p m seeds prepared h) emptyLedger)

/-! ## The machine and its ledger -/

/-- The machine agrees with the ledger. -/
structure Agrees (p : Platform F K) (h : Host F K) (last : ℕ → Record F) : Prop where
  remembers : Remembers (h.env p) (Set.Iio (h.env p).privateSlotCount) h.vm last
  length : h.vm.privateData.length = (h.env p).privateSlotCount

section

variable {p : Platform F K} {h h' : Host F K} {last : ℕ → Record F} {vm : Vm F}

theorem Agrees.kept (hagrees : Agrees p h last) (hkept : h.vm.Kept vm) :
    Agrees p { h with vm } last :=
  ⟨hagrees.remembers.kept hkept, (congrArg List.length hkept.privateData).trans hagrees.length⟩

/-- A store that fits is noted. -/
theorem Agrees.store (hagrees : Agrees p h last) {i : ℕ} {v : Value F} {s₀ s₁ : Vm F}
    (hi : i < (h.env p).privateSlotCount)
    (hfits : Storable (h.env p) h.vm.arena ((h.env p).sharedSlotCount + i) v)
    (harena : s₀.arena = h.vm.arena) (hdata : s₀.privateData = h.vm.privateData)
    (hwrote : Wrote (h.env p) i s₀ v s₁) (hkept : s₁.Kept vm) :
    Agrees p { h with vm } (Function.update last i (v.record h.vm.arena)) := by
  have hstart : h.vm.Kept s₀ := ⟨by rw [harena]; exact .refl _, hdata⟩
  have hremembers := (hagrees.remembers.kept hstart).write (by rwa [harena]) hwrote
  rw [Set.insert_eq_of_mem (show i ∈ Set.Iio _ from hi), harena] at hremembers
  refine ⟨hremembers.kept hkept, ?_⟩
  have hlength : s₁.privateData.length = s₀.privateData.length := by
    cases hwrote <;> exact List.length_set
  rw [show ({ h with vm } : Host F K).vm.privateData = s₁.privateData from hkept.privateData,
    hlength, hdata]
  exact hagrees.length

theorem calmNatives_env (hp : p.Calm) (m : Module) : (p.env m).CalmNatives := hp.natives

/-- Seeds that were moved into a laid pool are noted. -/
theorem agrees_seeds {m : ModuleFile} {priv : ℕ} {s : Vm F} (himage : h.image.file = m)
    (hpriv : priv = (p.env m.toModule).privateSlotCount) (ho : s.arena.Ordered)
    (hlaid : (p.env m.toModule).PoolLaid s.arena.persistentCapacity)
    (hlength : s.privateData.length = priv)
    (hfits : SeedsStorable (p.env m.toModule) 0 priv s)
    (hok : persistSeeded (p.env m.toModule) 0 priv s = (.ok (), vm)) :
    Agrees p { h with vm } (seedLedger (p.env m.toModule) 0 priv s emptyLedger) := by
  subst himage
  have hstart : Remembers (h.env p) (Set.Iio 0) s emptyLedger :=
    ⟨ho, hlaid, nofun, nofun, nofun⟩
  have hremembers := hstart.seeds hfits hok
  rw [Nat.zero_add] at hremembers
  refine ⟨?_, ?_⟩
  · show Remembers (h.env p) (Set.Iio (h.env p).privateSlotCount) vm _
    rwa [show (h.env p).privateSlotCount = priv from hpriv.symm]
  · have hkeeps := (persistSeeded_keeps (h.env p) 0 priv s).2
    rw [show persistSeeded (h.env p) 0 priv s = _ from hok] at hkeeps
    exact (hkeeps.trans hlength).trans hpriv

/-- What the construction of a machine has established. -/
theorem constructFresh_ok {m : ModuleFile} {a : Arena} (hp : p.Calm)
    (hok : constructFresh p m a = .ok h) :
    h.image.file = m ∧ a.Calm h.vm.arena ∧
      h.privateSlotCount = (p.env m.toModule).privateSlotCount ∧
      checkPersistent p a m.toModule h.privateSlotCount = .ok () ∧
      h.vm.privateData.length = h.privateSlotCount := by
  unfold constructFresh at hok
  obtain ⟨_, -, hok⟩ := bind_eq_ok hok
  obtain ⟨⟨shared, priv⟩, hcount, hok⟩ := bind_eq_ok hok
  obtain ⟨_, hroom, hok⟩ := bind_eq_ok hok
  obtain ⟨bytes, -, hok⟩ := bind_eq_ok hok
  obtain ⟨decoded, -, hok⟩ := bind_eq_ok hok
  obtain ⟨a₁, ha₁, hok⟩ := bind_eq_ok hok
  obtain ⟨a₂, ha₂, hok⟩ := bind_eq_ok hok
  obtain ⟨a₃, ha₃, hok⟩ := bind_eq_ok hok
  obtain ⟨_, -, hok⟩ := bind_eq_ok hok
  cases hok
  have hcalm := ((Arena.calm_preSizedBottomVec hp.value ha₁).trans
    (Arena.calm_preSizedBottomVec hp.callFrame ha₂)).trans
    (Arena.calm_preSizedBottomVec hp.arc ha₃)
  refine ⟨rfl, hcalm, countSlots_env hcount, hroom, ?_⟩
  show ((List.range priv).map _).length = priv
  rw [List.length_map, List.length_range]

/-- A new machine agrees with its initial values. -/
theorem agrees_new {m : ModuleFile} {policy : TrapPolicy} {a : Arena} {fresh : Host F K}
    (hp : p.Calm) (ha : a.Ordered) (hfresh : constructFresh p m a = .ok fresh)
    (hnew : newMachine p m policy a = .ok h)
    (hfits : SeedsStorable (p.env m.toModule) 0 fresh.privateSlotCount fresh.vm) :
    Agrees p h (seedLedger (p.env m.toModule) 0 fresh.privateSlotCount fresh.vm emptyLedger) := by
  unfold newMachine at hnew
  split at hnew
  · cases hnew
  split at hnew
  · cases hnew
  obtain ⟨_, -, hnew⟩ := bind_eq_ok hnew
  obtain ⟨_, hverify, hnew⟩ := bind_eq_ok hnew
  obtain ⟨_, -, hnew⟩ := bind_eq_ok hnew
  obtain ⟨built, hbuilt, hnew⟩ := bind_eq_ok hnew
  cases hnew
  unfold construct at hbuilt
  rw [hfresh] at hbuilt
  obtain ⟨himage, hcalm, hpriv, hroom, hlength⟩ := constructFresh_ok hp hfresh
  have hlaid := poolLaid_of_verify (mapError_eq_ok hverify) hpriv hroom
  rw [← hcalm.persistentCapacity] at hlaid
  dsimp only [bind, Except.bind] at hbuilt
  split at hbuilt
  · cases hbuilt
  next vm hpersist =>
    cases hbuilt
    have hagrees := agrees_seeds himage hpriv (hcalm.ordered ha) hlaid hlength hfits hpersist
    exact ⟨hagrees.remembers, hagrees.length⟩

/-- A machine agrees with its seeds after a swap. -/
theorem agrees_swap {call : SwapCall} {m : ModuleFile} {seeds : List (Value F)}
    {prepared : Prepared} (hp : p.Calm) (hagrees : Agrees p h last)
    (haccepted : call.accept p h = .ok m) (hprepare : prepare p m seeds h = .ok prepared)
    (hswap : call.run p seeds h = (.ok (), h'))
    (hfits : SeedsStorable (p.env m.toModule) 0 prepared.privateSlots
      (seedingVm p m seeds prepared h)) :
    Agrees p h' (seedLedger (p.env m.toModule) 0 prepared.privateSlots
      (seedingVm p m seeds prepared h) emptyLedger) := by
  rw [SwapCall.run_eq, haccepted] at hswap
  dsimp only [replaceModuleInner] at hswap
  rw [hprepare] at hswap
  obtain ⟨vm, hpersist, hvm, himage⟩ := commit_ok hswap
  have hchecked := prepare_checked hprepare
  have hpriv : prepared.privateSlots = (p.env m.toModule).privateSlotCount :=
    countSlots_env hchecked.counted
  have hkept : (install p m seeds prepared h).vm.Kept (seedingVm p m seeds prepared h) :=
    fullReset_calm hp _
  have hinstalled : (install p m seeds prepared h).vm.arena.Ordered :=
    ⟨hagrees.remembers.ordered.1, hagrees.remembers.ordered.2, hagrees.remembers.ordered.3⟩
  have hlaid := poolLaid_of_verify hchecked.verified hpriv hchecked.room
  have hcapacity : (seedingVm p m seeds prepared h).arena.persistentCapacity =
      h.vm.arena.persistentCapacity := hkept.arena.persistentCapacity
  rw [← hcapacity] at hlaid
  have hlength : (seedingVm p m seeds prepared h).privateData.length = prepared.privateSlots := by
    rw [hkept.privateData]
    exact (length_privateInit p seeds _).trans hchecked.length
  have hseeded := agrees_seeds himage hpriv (hkept.arena.ordered hinstalled) hlaid hlength hfits
    hpersist
  have hstarted : vm.Kept h'.vm := by
    rw [hvm]
    exact ⟨.refl _, rfl⟩
  exact hseeded.kept hstarted

theorem fullReset_image (p : Platform F K) (h : Host F K) : (fullReset p h).2.image = h.image := by
  obtain ⟨isReset, arena, hreset, -, -⟩ := fullReset_spec p h
  rw [hreset]

/-- **Every machine in service agrees with its ledger.** -/
theorem Serves.agrees (hp : p.Calm) (hserves : Serves p h last) : Agrees p h last := by
  induction hserves with
  | new ha hfresh hnew hfits => exact agrees_new hp ha hfresh hnew hfits
  | @call h last vm c shared args hserves hcall ih =>
    exact ih.kept (keeps_callFunction (calmNatives_env hp _) c shared args hcall)
  | @resume h last vm shared input hserves hresume ih =>
    exact ih.kept (keeps_resume (calmNatives_env hp _) shared input hresume)
  | @step h last vm o hserves hstep hfits ih =>
    cases hstore : dueStore (h.env p) h.vm with
    | none => exact ih.kept (step_keeps (calmNatives_env hp _) hstore hstep)
    | some store =>
      obtain ⟨i, v⟩ := store
      obtain ⟨hi, s₀, s₁, harena, hdata, hwrote, harena', hdata'⟩ := step_stores hstore hstep
      exact ih.store hi (hfits i v hstore) harena hdata hwrote
        ⟨by rw [harena']; exact .refl _, hdata'⟩
  | fault hserves hfault hkept ih => exact ih.kept hkept
  | faultAfterStore hserves hfault hstore hi hfits hwrite hkept ih =>
    rw [hstore]
    exact ih.store hi (hfits _ _ hstore) rfl rfl (writeDataSlot_ok hwrite) hkept
  | @resetAfterError h last hserves ih =>
    have hreset := fullReset_calm hp { h with
      elidePops := false
      proofState := if h.executionChecks = .proven then .poisoned else h.proofState
      vm := { h.vm with sharedBuf := none } }
    have hkept : h.vm.Kept (Keleusma.resetAfterError p h).vm := ⟨hreset.arena, hreset.privateData⟩
    have hagrees := ih.kept hkept
    have himage : (Keleusma.resetAfterError p h).env p = h.env p :=
      congrArg (fun image : Image => p.env image.file.toModule) (fullReset_image p _)
    exact ⟨himage ▸ hagrees.remembers, himage ▸ hagrees.length⟩
  | swap hserves haccepted hprepare hswap hfits ih =>
    exact agrees_swap hp ih haccepted hprepare hswap hfits

/-! ## The store -/

/-- **Private data is a store.** What a read of a private slot pushes has, at the read, the content
that was last stored to the slot, or is a text whose bytes a reset has reclaimed since. A store to
one slot changes the content of no other. -/
theorem private_data_store (hp : p.Calm) (hserves : Serves p h last) {o : Outcome F}
    (hstep : step (h.env p) h.vm = .ok (o, vm)) :
    (∀ i, dueRead (h.env p) h.vm = some i → ∃ op v suffix, dueOp (h.env p) h.vm = some op ∧
      vm.stack = h.vm.stack.take (h.vm.stack.length - opRequires op) ++ v :: suffix ∧
        (last i).Shows vm.arena v) ∧
    ∀ i v, dueStore (h.env p) h.vm = some (i, v) → ∀ j ≠ i,
      vm.privateData[j]? = h.vm.privateData[j]? ∧
        ∀ w, h.vm.privateData[j]? = some w → w.content vm.arena = w.content h.vm.arena := by
  obtain ⟨hremembers, hlength⟩ := hserves.agrees hp
  refine ⟨fun i hread => ?_, fun i v hstore j hji => ?_⟩
  · obtain ⟨hi, harena, -, op, suffix, hop, hstack⟩ := step_reads hread hstep
    have hslot : h.vm.privateData[i]? = some (h.vm.privateData.getD i .unit) := by
      rw [List.getD_eq_getElem?_getD, List.getElem?_eq_getElem (by omega), Option.getD_some]
    refine ⟨op, _, suffix, hop, hstack, ?_⟩
    rw [harena]
    exact hremembers.shows i hi _ hslot
  · obtain ⟨-, s₀, s₁, harena, hdata, hwrote, harena', hdata'⟩ := step_stores hstore hstep
    obtain ⟨hsame, hframe⟩ := hwrote.frame (by rw [harena]; exact hremembers.ordered)
      (by rw [harena]; exact hremembers.laid) hji.symm
    refine ⟨by rw [hdata', hsame, hdata], fun w hw => ?_⟩
    have hj : j < (h.env p).privateSlotCount := by
      rw [← hlength]
      exact (List.getElem?_eq_some_iff.1 hw).1
    have hplaced := hremembers.placed j hj w hw
    rw [harena']
    have hcontent := (hframe w (by rw [harena]; exact hplaced)).2.1
    rwa [harena] at hcontent

end

/-! ## Scripts of a host -/

/-- What a host does with a machine. -/
inductive HostAct (F : Type)
  | call (c : ℕ) (args : List (Value F))
  | resume (input : Value F)
  | step

/-- A sufficient check that a store fits: a composite of the pool, a text, or a plain value. -/
def storeFits (env : Env F) (a : Arena) : Option (ℕ × Value F) → Bool
  | none => true
  | some (i, .flat _ _) => (env.privateCompositePoolOffset (env.sharedSlotCount + i)).isSome
  | some (_, .kstr h) => a.addrIsEphemeral h.addr &&
      (decide (h.epoch < a.epoch) || h.epoch == a.epoch && decide (a.base + a.topTop ≤ h.addr))
  | some (_, v) => v.handles.isEmpty

/-- Run a script. -/
def perform (p : Platform F K) :
    List (HostAct F) → Host F K × (ℕ → Record F) → Option (Host F K × (ℕ → Record F))
  | [], served => some served
  | act :: acts, (h, last) =>
    match act with
    | .call c args =>
      match callFunction (h.env p) c [] args h.vm with
      | .ok ((), vm) => perform p acts ({ h with vm }, last)
      | .error _ => none
    | .resume input =>
      match resume (h.env p) [] input h.vm with
      | .ok ((), vm) => perform p acts ({ h with vm }, last)
      | .error _ => none
    | .step =>
      match storeFits (h.env p) h.vm.arena (dueStore (h.env p) h.vm),
        step (h.env p) h.vm with
      | true, .ok (_, vm) =>
        perform p acts ({ h with vm }, noted (dueStore (h.env p) h.vm) h.vm.arena last)
      | _, _ => none

theorem storeFits_sound {env : Env F} {a : Arena} {store : Option (ℕ × Value F)}
    (h : storeFits env a store = true) : StoreFits env a store := by
  rintro i v rfl
  have hplain (hempty : v.handles.isEmpty = true) : Storable env a (env.sharedSlotCount + i) v :=
    .outside fun body hbody => by
      rw [List.isEmpty_iff.1 hempty] at hbody
      cases hbody
  cases v with
  | flat kind body =>
    obtain ⟨off, hoff⟩ := Option.isSome_iff_exists.1 h
    exact .moved hoff
  | kstr h' =>
    simp only [storeFits, Bool.and_eq_true, Bool.or_eq_true, decide_eq_true_eq,
      beq_iff_eq] at h
    exact .text h
  | _ => exact hplain h

/-- The same check for the seeds of the slots from `i` on. -/
def seedsFit (env : Env F) : ℕ → ℕ → Vm F → Bool
  | _, 0, _ => true
  | i, n + 1, s =>
    storeFits env (seedStore env i s).2 (some (i, (seedStore env i s).1)) &&
      seedsFit env (i + 1) n (persistSeededSlot env i s).2

theorem seedsFit_sound {env : Env F} {i n : ℕ} {s : Vm F} (h : seedsFit env i n s = true) :
    SeedsStorable env i n s := by
  induction n generalizing i s with
  | zero => trivial
  | succ n ih =>
    simp only [seedsFit, Bool.and_eq_true] at h
    exact ⟨storeFits_sound h.1 _ _ rfl, ih h.2⟩

/-- A new machine with its ledger. -/
def serve (p : Platform F K) (m : ModuleFile) (policy : TrapPolicy) (a : Arena) :
    Option (Host F K × (ℕ → Record F)) :=
  match constructFresh p m a, newMachine p m policy a with
  | .ok fresh, .ok h =>
    if seedsFit (p.env m.toModule) 0 fresh.privateSlotCount fresh.vm then
      some (h, seedLedger (p.env m.toModule) 0 fresh.privateSlotCount fresh.vm emptyLedger)
    else none
  | _, _ => none

theorem serve_serves {p : Platform F K} {m : ModuleFile} {policy : TrapPolicy} {a : Arena}
    {served : Host F K × (ℕ → Record F)} (ha : a.Ordered)
    (h : serve p m policy a = some served) : Serves p served.1 served.2 := by
  unfold serve at h
  split at h
  next fresh host hfresh hnew =>
    split at h
    next hfits =>
      cases h
      exact .new ha hfresh hnew (seedsFit_sound hfits)
    · cases h
  · cases h

/-- A script that succeeds keeps the machine in service. -/
theorem perform_serves {p : Platform F K} {acts : List (HostAct F)}
    {served served' : Host F K × (ℕ → Record F)} (hserves : Serves p served.1 served.2)
    (h : perform p acts served = some served') : Serves p served'.1 served'.2 := by
  induction acts generalizing served with
  | nil =>
    cases h
    exact hserves
  | cons act acts ih =>
    cases act with
    | call c args =>
      rw [perform] at h
      split at h
      next vm hcall =>
        exact @ih ({ served.1 with vm }, served.2) (.call c [] args hserves hcall) h
      · cases h
    | resume input =>
      rw [perform] at h
      split at h
      next vm hresume =>
        exact @ih ({ served.1 with vm }, served.2) (.resume [] input hserves hresume) h
      · cases h
    | step =>
      rw [perform] at h
      split at h
      next hfits hstep => exact ih (.step hserves hstep (storeFits_sound hfits)) h
      · cases h

/-! ## A text that a reset reclaims -/

/-- A native that returns a text of its own. -/
def textNative : Native Unit where
  external := false
  func _ a _ _ := match allocText "hi" a with
    | some (h, a') => (.ok (.kstr h), a')
    | none => (.error ⟨true, none, "no room"⟩, a)

/-- A stream that reads its text, asks for another one and stores it. -/
def textFile : ModuleFile where
  toModule := { plainModule [plainChunk
      [.stream, .getData 0, .popN 1, .callVerifiedNative 0 0, .setData 0, .getData 0, .popN 1,
        .pushImmediate 1, .yield, .popN 1, .reset] .stream 0 0] with
    nativeNames := ["host::text"]
    dataLayout := some ⟨[⟨"state.text", .privateSlot⟩], [], [], [.staticStr ""]⟩ }
  flags := 0
  schemaHash := 0
  auxArenaBytes := 0

def textPlatform : Platform Unit Unit where
  base := { plainEnv textFile.toModule with
    natives := fun name => if name = "host::text" then some textNative else none }
  addressBitsLog2 := 6
  floatBitsLog2 := 6
  valueAlign := 8
  callFrame := ⟨24, 8⟩
  arc := ⟨16, 8⟩
  verifyStrict _ _ _ := false
  resourceBounds _ _ := .ok ()
  runtimeFootprint _ := some (4, 1)
  toBytes _ := .ok []
  fromBytes _ := .error .truncated
  decodeAllOps _ := .ok [(textFile.chunks.map (·.ops)).flatten]
  resolveAux _ := .ok ()

theorem textPlatform_calm : textPlatform.Calm where
  natives := by
    intro name entry hentry calls arena registry args
    simp only [textPlatform] at hentry
    split at hentry
    · cases hentry
      dsimp only [textNative]
      split
      next h a' halloc => exact (Allocates.allocText _ halloc).calm
      · exact .refl _
    · cases hentry
  value := by decide
  callFrame := by decide
  arc := by decide

/-- The arena of the host: one slot of private data, and room behind it. -/
def textArena : Arena := ⟨4096, 4096, 32, 32, 4096, 1, fun _ => 0⟩

/-- The machine after a script. -/
def textRun (acts : List (HostAct Unit)) : Option (Host Unit Unit × (ℕ → Record Unit)) :=
  (serve textPlatform textFile .allow textArena).bind (perform textPlatform acts)

theorem textRun_serves {acts : List (HostAct Unit)}
    {served : Host Unit Unit × (ℕ → Record Unit)} (h : textRun acts = some served) :
    Serves textPlatform served.1 served.2 := by
  obtain ⟨start, hstart, hperform⟩ := Option.bind_eq_some_iff.1 h
  exact perform_serves (serve_serves ⟨by decide, by decide, by decide⟩ hstart) hperform

/-- What the next step reads and pushes on an empty stack, and what the ledger notes. -/
structure Reading where
  op : Option Op
  slot : Option ℕ
  height : ℕ
  pushed : List (List (Option (List UInt8)))
  noted : List (Option (List UInt8))
  deriving DecidableEq

def textRead (served : Host Unit Unit × (ℕ → Record Unit)) : Reading where
  op := dueOp (served.1.env textPlatform) served.1.vm
  slot := dueRead (served.1.env textPlatform) served.1.vm
  height := served.1.vm.stack.length
  pushed := match step (served.1.env textPlatform) served.1.vm with
    | .ok (_, vm) => vm.stack.map fun v => (v.content vm.arena).bytes
    | .error _ => []
  noted := (served.2 0).content.bytes

/-- Every read of a private slot pushes the content that was last stored to it. -/
def ReadsBack (p : Platform F K) : Prop :=
  ∀ h last, Serves p h last → ∀ vm o i, step (h.env p) h.vm = .ok (o, vm) →
    dueRead (h.env p) h.vm = some i → ∃ op v suffix, dueOp (h.env p) h.vm = some op ∧
      vm.stack = h.vm.stack.take (h.vm.stack.length - opRequires op) ++ v :: suffix ∧
        v.content vm.arena = (last i).content

set_option maxRecDepth 8000 in
/-- The text is stored in the first iteration. In the second one it is stale. -/
theorem stale_text : ¬ReadsBack textPlatform := by
  intro hback
  have hread : (textRun (.call 0 [] :: List.replicate 9 .step ++ [.resume .unit] ++
      List.replicate 2 .step ++ [.resume .unit])).map textRead =
      some ⟨some (.getData 0), some 0, 0, [[none]], [some [104, 105]]⟩ := by decide +kernel
  obtain ⟨⟨h, last⟩, hrun, hread⟩ := Option.map_eq_some_iff.1 hread
  simp only [textRead, Reading.mk.injEq, List.length_eq_zero_iff] at hread
  obtain ⟨-, hdue, hempty, hpushed, hnoted⟩ := hread
  cases hstep : step (h.env textPlatform) h.vm with
  | error e =>
    rw [hstep] at hpushed
    cases hpushed
  | ok r =>
    obtain ⟨o, vm⟩ := r
    rw [hstep] at hpushed
    obtain ⟨op, v, suffix, -, hstack, hcontent⟩ :=
      hback h last (textRun_serves hrun) vm o 0 hstep hdue
    rw [hempty, List.take_nil, List.nil_append] at hstack
    simp only [hstack, List.map_cons, hcontent, hnoted] at hpushed
    cases hpushed

set_option maxRecDepth 8000 in
/-- In the iteration that stores it, the text is read back. -/
theorem text_read_back : ∃ (h : Host Unit Unit) (last : ℕ → Record Unit) (vm : Vm Unit)
    (v : Value Unit), Serves textPlatform h last ∧
    dueRead (h.env textPlatform) h.vm = some 0 ∧ vm.stack = [v] ∧ (last 0).Shows vm.arena v ∧
      (v.content vm.arena).bytes = [some [104, 105]] := by
  have hread : (textRun (.call 0 [] :: List.replicate 5 .step)).map textRead =
      some ⟨some (.getData 0), some 0, 0, [[some [104, 105]]], [some [104, 105]]⟩ := by
    decide +kernel
  obtain ⟨⟨h, last⟩, hrun, hread⟩ := Option.map_eq_some_iff.1 hread
  simp only [textRead, Reading.mk.injEq, List.length_eq_zero_iff] at hread
  obtain ⟨-, hdue, hempty, hpushed, -⟩ := hread
  cases hstep : step (h.env textPlatform) h.vm with
  | error e =>
    rw [hstep] at hpushed
    cases hpushed
  | ok r =>
    obtain ⟨o, vm⟩ := r
    rw [hstep] at hpushed
    obtain ⟨op, v, suffix, -, hstack, hshows⟩ :=
      (private_data_store textPlatform_calm (textRun_serves hrun) hstep).1 0 hdue
    rw [hempty, List.take_nil, List.nil_append] at hstack
    simp only [hstack, List.map_cons, List.cons.injEq, List.map_eq_nil_iff] at hpushed
    exact ⟨h, last, vm, v, textRun_serves hrun, hdue, by rw [hstack, hpushed.2], hshows, hpushed.1⟩

end Keleusma
