import Keleusma.Arena.Blocks

/-!
# Handles of an arena

A handle records the address of its storage and the epoch at which it was issued. Operations that
reclaim storage advance the epoch, but `ArenaHandle.get` compares epochs only for addresses in the
region that a reset reclaims. A resize that moves the boundary of the persistent region past the
address of a handle takes the handle out of that region, and with it out of the comparison
(`detects_iff`).
-/

namespace KeleusmaArena

open Overflow

namespace Session

variable {s : Session}

/-! ## Bounds -/

/-- What holds of every admissible session, whatever marks are replayed. -/
structure Bounds (buffer : Buffer) (s : Session) : Prop where
  buffer_eq : s.arena.buffer = buffer
  persistent : s.arena.persistentCapacity ≤ buffer.capacity
  top : s.arena.topTop ≤ buffer.capacity
  marks : ∀ m ∈ s.topMarks, m ≤ buffer.capacity
  returned : ∀ b, s.returned = some b → b.stop ≤ buffer.capacity

variable {buffer : Buffer}

theorem bounds_fresh (mem : ℕ → UInt8) : (fresh buffer mem).Bounds buffer :=
  ⟨rfl, Nat.zero_le _, le_rfl, List.forall_mem_nil _, by rintro _ ⟨⟩⟩

/-- An operation that returns no block and keeps the marks. -/
theorem Bounds.of_arena (h : s.Bounds buffer) {a : Arena} {bottom top : List Block}
    (hb : a.buffer = s.arena.buffer) (hp : a.persistentCapacity ≤ buffer.capacity)
    (ht : a.topTop ≤ buffer.capacity) :
    Bounds buffer ⟨a, none, bottom, top, s.bottomMarks, s.topMarks⟩ :=
  ⟨hb.trans h.buffer_eq, hp, ht, h.marks, by rintro _ ⟨⟩⟩

theorem Bounds.sameHeads (h : s.Bounds buffer) {a : Arena} {bottom top : List Block}
    (ha : s.arena.SameHeads a) :
    Bounds buffer ⟨a, none, bottom, top, s.bottomMarks, s.topMarks⟩ :=
  h.of_arena ha.buffer (ha.persistentCapacity ▸ h.persistent) (ha.topTop ▸ h.top)

theorem Bounds.reclaim (h : s.Bounds buffer) {bottom top : List Block} {r : Reply Unit}
    (hok : ∀ a, r = (.ok (), a) → a.buffer = s.arena.buffer ∧
      a.persistentCapacity ≤ buffer.capacity ∧ a.topTop ≤ buffer.capacity)
    (herr : ∀ e a, r = (.error e, a) → s.arena.SameHeads a) :
    (s.reclaim bottom top r).Bounds buffer := by
  obtain ⟨_ | ⟨⟩, a⟩ := r
  · exact h.sameHeads (herr _ a rfl)
  · obtain ⟨hb, hp, ht⟩ := hok a rfl
    exact h.of_arena hb hp ht

theorem Bounds.advancing (h : s.Bounds buffer) {bottom top : List Block} {a : Arena}
    (ha : s.arena.SameHeads a) {change : Arena → Arena} (hb : (change a).buffer = a.buffer)
    (hp : (change a).persistentCapacity ≤ buffer.capacity)
    (ht : (change a).topTop ≤ buffer.capacity) :
    (s.reclaim bottom top (a.advancing change)).Bounds buffer := by
  refine h.reclaim (fun a' h' => ?_) fun e a' h' => ?_
  · obtain ⟨-, rfl⟩ := Arena.advancing_ok h'
    exact ⟨hb.trans ha.buffer, hp, ht⟩
  · obtain rfl := Arena.advancing_error h'
    exact ha

theorem Bounds.holdBottom (h : s.Bounds buffer) (layout : Layout) :
    (s.holdBottom (s.arena.allocBottom layout)).Bounds buffer := by
  rcases hr : s.arena.allocBottom layout with ⟨e | b, a⟩
  · obtain rfl := Arena.allocBottom_error hr
    exact h.sameHeads (.refl _)
  · obtain ⟨-, -, -, hhi, peak, rfl⟩ := Arena.allocBottom_ok hr
    refine ⟨h.buffer_eq, h.persistent, h.top, h.marks, fun c hc => ?_⟩
    cases hc
    exact hhi.trans h.top

theorem Bounds.holdTop (h : s.Bounds buffer) (layout : Layout) :
    (s.holdTop (s.arena.allocTop layout)).Bounds buffer := by
  rcases hr : s.arena.allocTop layout with ⟨e | b, a⟩
  · obtain rfl := Arena.allocTop_error hr
    exact h.sameHeads (.refl _)
  · obtain ⟨-, -, -, hhi, low, rfl⟩ := Arena.allocTop_ok hr
    have hstop : b.offset ≤ b.stop := Nat.le_add_right _ _
    refine ⟨h.buffer_eq, h.persistent, (hstop.trans hhi).trans h.top, h.marks, fun c hc => ?_⟩
    cases hc
    exact hhi.trans h.top

/-- Every admitted operation keeps the bounds. -/
theorem Bounds.next (h : s.Bounds buffer) {op : Operation} (hadm : s.Admits op) :
    (s.next op).Bounds buffer := by
  have hcap : s.arena.capacity = buffer.capacity := congrArg Buffer.capacity h.buffer_eq
  have hzero : ∀ start len, s.arena.SameHeads (s.arena.zeroRange start len) :=
    fun _ _ => ⟨rfl, rfl, rfl, rfl⟩
  cases op with
  | allocBottom layout => exact h.holdBottom layout
  | allocTop layout => exact h.holdTop layout
  | allocBottomBytes n =>
    rw [Session.next]
    rcases s.arena.allocBottomBytes_cases n with hn | ⟨layout, hn⟩
    · rw [hn]
      exact h.sameHeads (.refl _)
    · rw [hn]
      exact h.holdBottom layout
  | allocTopBytes n =>
    rw [Session.next]
    rcases s.arena.allocTopBytes_cases n with hn | ⟨layout, hn⟩
    · rw [hn]
      exact h.sameHeads (.refl _)
    · rw [hn]
      exact h.holdTop layout
  | reset | resetUnchecked | resetTopUnchecked =>
    exact h.advancing (.refl _) rfl h.persistent hcap.le
  | resizePersistent n =>
    show (s.reclaim [] [] (if s.arena.capacity < n then _ else _)).Bounds buffer
    split_ifs with hn
    · exact h.sameHeads (.refl _)
    · exact h.advancing (.refl _) rfl (hcap ▸ not_lt.mp hn) hcap.le
  | resizePersistentCapacity n =>
    refine h.reclaim (fun a ha => ?_) fun e a ha => ?_
    · rcases Arena.resizePersistentCapacity_ok ha with ⟨rfl, -⟩ | ⟨-, hn, -, hb, hp, -, ht, -⟩
      · exact ⟨rfl, h.persistent, h.top⟩
      · exact ⟨hb, by rw [hp]; exact hcap ▸ hn, by rw [ht]; exact h.top⟩
    · obtain rfl := Arena.resizePersistentCapacity_error ha
      exact .refl _
  | zeroPersistent => exact h.sameHeads (hzero _ _)
  | zeroPersistentRange start len =>
    have hsame := s.arena.zeroPersistentRange_sameHeads start len
    refine h.reclaim (fun a ha => ?_) fun e a ha => ?_
    · rw [ha] at hsame
      exact ⟨hsame.buffer, hsame.persistentCapacity ▸ h.persistent, hsame.topTop ▸ h.top⟩
    · rwa [ha] at hsame
  | zeroDualHeaded =>
    rw [Session.next]
    rcases s.arena.zeroDualHeaded_cases with hn | ⟨len, hn⟩
    · rw [hn]
      exact h.sameHeads (.refl _)
    · rw [hn]
      exact h.advancing (hzero _ len) rfl h.persistent hcap.le
  | zeroAll => exact h.advancing (hzero 0 _) rfl h.persistent hcap.le
  | bottomMark => exact ⟨h.buffer_eq, h.persistent, h.top, h.marks, by rintro _ ⟨⟩⟩
  | topMark =>
    refine ⟨h.buffer_eq, h.persistent, h.top, fun m hm => ?_, by rintro _ ⟨⟩⟩
    rcases List.mem_cons.mp hm with rfl | hm'
    · exact h.top
    · exact h.marks m hm'
  | rewindBottom mark | resetBottom | clearPeaks => exact h.of_arena rfl h.persistent h.top
  | rewindTop mark => exact h.of_arena rfl h.persistent (max_le (h.marks mark hadm) h.top)
  | resetTop | forceResetEpoch => exact h.of_arena rfl h.persistent hcap.le

/-- Every prefix of an admissible sequence keeps the bounds. -/
theorem bounds_run {mem : ℕ → UInt8} {ops p : List Operation}
    (hadm : (fresh buffer mem).Admissible ops) (hp : p <+: ops) :
    ((fresh buffer mem).run p).Bounds buffer := by
  induction p using List.reverseRecOn with
  | nil => exact bounds_fresh mem
  | append_singleton p op ih =>
    rw [run_snoc]
    exact (ih ((List.prefix_append p [op]).trans hp)).next (hadm p op hp)

/-! ## Epochs -/

/-- The operation succeeds and reclaims storage that handles may point to. -/
def Invalidates (s : Session) : Operation → Prop
  | .reset => s.arena.reset.1 = .ok ()
  | .resetUnchecked => s.arena.resetUnchecked.1 = .ok ()
  | .resetTopUnchecked => s.arena.resetTopUnchecked.1 = .ok ()
  | .resizePersistent n => (s.arena.resizePersistent n).1 = .ok ()
  | .resizePersistentCapacity n =>
    (s.arena.resizePersistentCapacity n).1 = .ok () ∧ n ≠ s.arena.persistentCapacity
  | .zeroDualHeaded => s.arena.zeroDualHeaded.1 = .ok ()
  | .zeroAll => s.arena.zeroAll.1 = .ok ()
  | _ => False

/-- An operation of the sequence invalidates handles. -/
def Invalidated (s : Session) (ops : List Operation) : Prop :=
  ∃ p op, p ++ [op] <+: ops ∧ (s.run p).Invalidates op

/-- An operation that reclaims as it advances the epoch. -/
theorem epoch_advancing {bottom top : List Block} {a : Arena} (ha : a.epoch = s.arena.epoch)
    (change : Arena → Arena) :
    ((a.advancing change).1 = .ok () →
      (s.reclaim bottom top (a.advancing change)).arena.epoch = s.arena.epoch + 1) ∧
    ((a.advancing change).1 ≠ .ok () →
      (s.reclaim bottom top (a.advancing change)).arena.epoch = s.arena.epoch) := by
  rcases hr : a.advancing change with ⟨e | ⟨⟩, a'⟩
  · obtain rfl := Arena.advancing_error hr
    exact ⟨by rintro ⟨⟩, fun _ => ha⟩
  · obtain ⟨-, rfl⟩ := Arena.advancing_ok hr
    exact ⟨fun _ => congrArg (· + 1) ha, fun h => absurd rfl h⟩

/-- **The epoch counts the operations that invalidate handles.** -/
theorem epoch_next {op : Operation} (hforce : op ≠ .forceResetEpoch) :
    (s.Invalidates op → (s.next op).arena.epoch = s.arena.epoch + 1) ∧
      (¬s.Invalidates op → (s.next op).arena.epoch = s.arena.epoch) := by
  have hzero : ∀ start len, (s.arena.zeroRange start len).epoch = s.arena.epoch := fun _ _ => rfl
  have hbottom : ∀ layout, (s.holdBottom (s.arena.allocBottom layout)).arena.epoch =
      s.arena.epoch := by
    intro layout
    rcases hr : s.arena.allocBottom layout with ⟨e | b, a⟩
    · obtain rfl := Arena.allocBottom_error hr
      rfl
    · obtain ⟨-, -, -, -, peak, rfl⟩ := Arena.allocBottom_ok hr
      rfl
  have htop : ∀ layout, (s.holdTop (s.arena.allocTop layout)).arena.epoch = s.arena.epoch := by
    intro layout
    rcases hr : s.arena.allocTop layout with ⟨e | b, a⟩
    · obtain rfl := Arena.allocTop_error hr
      rfl
    · obtain ⟨-, -, -, -, low, rfl⟩ := Arena.allocTop_ok hr
      rfl
  cases op with
  | allocBottom layout => exact ⟨by rintro ⟨⟩, fun _ => hbottom layout⟩
  | allocTop layout => exact ⟨by rintro ⟨⟩, fun _ => htop layout⟩
  | allocBottomBytes n =>
    refine ⟨by rintro ⟨⟩, fun _ => ?_⟩
    rw [Session.next]
    rcases s.arena.allocBottomBytes_cases n with hn | ⟨layout, hn⟩
    · rw [hn]
      rfl
    · rw [hn]
      exact hbottom layout
  | allocTopBytes n =>
    refine ⟨by rintro ⟨⟩, fun _ => ?_⟩
    rw [Session.next]
    rcases s.arena.allocTopBytes_cases n with hn | ⟨layout, hn⟩
    · rw [hn]
      rfl
    · rw [hn]
      exact htop layout
  | reset | resetUnchecked | resetTopUnchecked => exact epoch_advancing rfl _
  | resizePersistent n =>
    show ((ite _ _ _ : Reply Unit).1 = _ → (s.reclaim [] [] (ite _ _ _)).arena.epoch = _) ∧
      ((ite _ _ _ : Reply Unit).1 ≠ _ → (s.reclaim [] [] (ite _ _ _)).arena.epoch = _)
    split_ifs with hn
    · exact ⟨by rintro ⟨⟩, fun _ => rfl⟩
    · exact epoch_advancing rfl _
  | resizePersistentCapacity n =>
    show (_ ∧ _ → (s.reclaim _ _ (s.arena.resizePersistentCapacity n)).arena.epoch = _) ∧
      (¬(_ ∧ _) → (s.reclaim _ _ (s.arena.resizePersistentCapacity n)).arena.epoch = _)
    rcases hr : s.arena.resizePersistentCapacity n with ⟨e | ⟨⟩, a⟩
    · obtain rfl := Arena.resizePersistentCapacity_error hr
      exact ⟨fun h => (by cases h.1), fun _ => rfl⟩
    · rcases Arena.resizePersistentCapacity_ok hr with ⟨rfl, hn⟩ |
        ⟨hne, -, -, -, -, -, -, -, -, hepoch⟩
      · exact ⟨fun h => absurd hn h.2, fun _ => rfl⟩
      · exact ⟨fun _ => hepoch, fun h => absurd ⟨rfl, hne⟩ h⟩
  | zeroPersistentRange start len =>
    refine ⟨by rintro ⟨⟩, fun _ => ?_⟩
    rw [Session.next]
    rcases s.arena.zeroPersistentRange_cases start len with ⟨e, hn⟩ | hn
    · rw [hn]
      rfl
    · rw [hn]
      rfl
  | zeroDualHeaded =>
    rw [Invalidates, next]
    rcases s.arena.zeroDualHeaded_cases with hn | ⟨len, hn⟩
    · rw [hn]
      exact ⟨by rintro ⟨⟩, fun _ => rfl⟩
    · rw [hn]
      exact epoch_advancing (hzero _ len) _
  | zeroAll => exact epoch_advancing (hzero 0 _) _
  | zeroPersistent | bottomMark | topMark | rewindBottom mark | rewindTop mark | resetBottom
  | resetTop | clearPeaks => exact ⟨by rintro ⟨⟩, fun _ => rfl⟩
  | forceResetEpoch => exact absurd rfl hforce

/-- Over a sequence without `forceResetEpoch` the epoch grows if an operation invalidates handles,
and stays otherwise. -/
theorem epoch_run {ops : List Operation} (hforce : .forceResetEpoch ∉ ops) :
    (s.Invalidated ops → s.arena.epoch < (s.run ops).arena.epoch) ∧
      (¬s.Invalidated ops → (s.run ops).arena.epoch = s.arena.epoch) := by
  suffices h : s.arena.epoch ≤ (s.run ops).arena.epoch ∧
      ((s.run ops).arena.epoch = s.arena.epoch ↔ ¬s.Invalidated ops) by
    obtain ⟨hle, hiff⟩ := h
    refine ⟨fun hi => lt_of_le_of_ne hle fun he => hiff.mp he.symm hi, hiff.mpr⟩
  induction ops generalizing s with
  | nil => exact ⟨le_rfl, fun _ => fun ⟨p, op, hp, _⟩ => by simp at hp, fun _ => rfl⟩
  | cons op ops ih =>
    obtain ⟨hle, hiff⟩ := @ih (s.next op) fun h => hforce (List.mem_cons_of_mem _ h)
    have hne : op ≠ .forceResetEpoch := fun h => hforce (h ▸ List.mem_cons_self)
    obtain ⟨hyes, hno⟩ := epoch_next (s := s) hne
    have hcons : s.Invalidated (op :: ops) ↔
        s.Invalidates op ∨ (s.next op).Invalidated ops := by
      constructor
      · rintro ⟨p, op', hp, hi⟩
        rcases snoc_prefix_cons.mp hp with ⟨rfl, rfl⟩ | ⟨p', rfl, hp'⟩
        · exact .inl hi
        · exact .inr ⟨p', op', hp', hi⟩
      · rintro (hi | ⟨p, op', hp, hi⟩)
        · exact ⟨[], op, snoc_prefix_cons.mpr (.inl ⟨rfl, rfl⟩), hi⟩
        · exact ⟨op :: p, op', snoc_prefix_cons.mpr (.inr ⟨p, rfl, hp⟩), hi⟩
    show s.arena.epoch ≤ ((s.next op).run ops).arena.epoch ∧
      (((s.next op).run ops).arena.epoch = s.arena.epoch ↔ _)
    rw [hcons, not_or]
    by_cases hi : s.Invalidates op
    · have he := hyes hi
      exact ⟨by omega, fun h => by omega, fun h => absurd hi h.1⟩
    · have he := hno hi
      rw [he] at hle hiff
      exact ⟨hle, fun h => ⟨hi, hiff.mp h⟩, fun h => hiff.mpr h.2⟩

/-! ## Stale handles -/

/-- The handle to byte `i` of the block that the last operation returned. -/
def issue (s : Session) (b : Block) (i : ℕ) : ArenaHandle :=
  ⟨s.arena.buffer.base + b.offset + i, s.arena.epoch⟩

/-- **Detection**: after the sequence the handle is stale if an operation has invalidated it, and
resolves otherwise. -/
def Detects (s : Session) (ops : List Operation) (h : ArenaHandle) : Prop :=
  (s.Invalidated ops → h.get (s.run ops).arena = .error .stale) ∧
    (¬s.Invalidated ops → h.get (s.run ops).arena = .ok h.addr)

/-- A handle to storage of the buffer resolves exactly if its epoch is the current one or its
storage lies in the persistent region. -/
theorem get_eq {s : Session} (h : s.Bounds buffer) {offset epoch : ℕ}
    (hoff : offset < buffer.capacity) :
    (ArenaHandle.mk (buffer.base + offset) epoch).get s.arena =
      if s.arena.persistentCapacity ≤ offset ∧ epoch ≠ s.arena.epoch then .error .stale
      else .ok (buffer.base + offset) := by
  have hend := buffer.end_lt
  have hp := h.persistent
  have hpc : (buffer.base + s.arena.persistentCapacity) % 2 ^ buffer.usizeBits =
      buffer.base + s.arena.persistentCapacity := Nat.mod_eq_of_lt (by omega)
  have hcap : (buffer.base + buffer.capacity) % 2 ^ buffer.usizeBits =
      buffer.base + buffer.capacity := Nat.mod_eq_of_lt hend
  have hlive : s.arena.addrIsLive (buffer.base + offset) epoch =
      if s.arena.persistentCapacity ≤ offset then epoch == s.arena.epoch else true := by
    rw [Arena.addrIsLive, Arena.capacity, h.buffer_eq, hpc, hcap]
    by_cases hle : s.arena.persistentCapacity ≤ offset
    · simp [hle, hoff]
    · simp [hle]
  rw [ArenaHandle.get, hlive]
  by_cases hle : s.arena.persistentCapacity ≤ offset
  · by_cases he : epoch = s.arena.epoch
    · simp [he]
    · simp [hle, he]
  · simp [hle]

/-- **A stale handle is detected exactly while the persistent region does not cover its storage**:
for every sequence of operations without `forceResetEpoch`, every block it allocates and every byte
of the block, whatever operations follow. -/
theorem detects_iff {mem : ℕ → UInt8} {before after : List Operation} {b : Block} {i : ℕ}
    (hadm : (fresh buffer mem).Admissible (before ++ after))
    (hforce : .forceResetEpoch ∉ before ++ after)
    (hb : ((fresh buffer mem).run before).returned = some b) (hi : i < b.layout.size) :
    ((fresh buffer mem).run before).Detects after
        (((fresh buffer mem).run before).issue b i) ↔
      (((fresh buffer mem).run before).Invalidated after →
        ((fresh buffer mem).run (before ++ after)).arena.persistentCapacity ≤ b.offset + i) := by
  have hbounds : ∀ p, p <+: before ++ after → ((fresh buffer mem).run p).Bounds buffer :=
    fun p hp => bounds_run hadm hp
  have hissued := hbounds before (List.prefix_append _ _)
  have hend := hbounds _ (List.prefix_refl _)
  have hoff : b.offset + i < buffer.capacity := by
    have := hissued.returned b hb
    have hstop : b.stop = b.offset + b.layout.size := rfl
    omega
  have hget := @get_eq _ _ hend _ ((fresh buffer mem).run before).arena.epoch hoff
  have hissue : ((fresh buffer mem).run before).issue b i =
      ⟨buffer.base + (b.offset + i), ((fresh buffer mem).run before).arena.epoch⟩ := by
    rw [issue, hissued.buffer_eq, Nat.add_assoc]
  have hafter : .forceResetEpoch ∉ after := fun h => hforce (List.mem_append_right _ h)
  obtain ⟨hlt, heq⟩ := @epoch_run ((fresh buffer mem).run before) _ hafter
  rw [run_append] at hget ⊢
  rw [Detects, hissue, hget]
  constructor
  · rintro ⟨hstale, -⟩ hinv
    by_contra hcover
    have h := hstale hinv
    rw [if_neg fun h' => hcover h'.1] at h
    cases h
  · intro hcover
    refine ⟨fun hinv => if_pos ⟨hcover hinv, (hlt hinv).ne⟩, fun hinv => if_neg fun h' => ?_⟩
    exact h'.2 (heq hinv).symm

/-! ## A resize past the storage of a handle -/

/-- A block at the start of the buffer. -/
def firstBlock (n : ℕ) : Block := ⟨0, ⟨n, 1, one_eq_two_pow⟩⟩

/-- The session that has allocated it. -/
def holdingFirst (buffer : Buffer) (mem : ℕ → UInt8) (n : ℕ) : Session where
  arena := { Arena.fresh buffer mem with bottomTop := n, bottomPeak := if 0 < n then n else 0 }
  returned := some (firstBlock n)
  bottomBlocks := [firstBlock n]
  topBlocks := []
  bottomMarks := []
  topMarks := []

/-- The first bytes of a fresh arena lie at the start of its buffer. -/
theorem run_holdingFirst {mem : ℕ → UInt8} {n : ℕ} (hn : n ≤ buffer.capacity) :
    (fresh buffer mem).run [.allocBottomBytes n] = holdingFirst buffer mem n := by
  have hcap := buffer.capacity_lt
  have hend := buffer.end_lt
  have hlayout : (Arena.fresh buffer mem).byteLayout n = some (firstBlock n).layout :=
    if_pos (show 2 * n < 2 ^ buffer.usizeBits by omega)
  have hbase : checkedAdd buffer.usizeBits buffer.base 0 = some buffer.base :=
    if_pos (by omega)
  have hn' : checkedAdd buffer.usizeBits 0 n = some n := by
    rw [checkedAdd, if_pos (by omega), Nat.zero_add]
  have halign : Nat.ldiff buffer.base 0 = buffer.base := by
    have := ldiff_mask buffer.base 0
    simpa using this
  have halloc : (Arena.fresh buffer mem).allocBottomBytes n =
      (.ok (firstBlock n), (holdingFirst buffer mem n).arena) := by
    rw [Arena.allocBottomBytes, hlayout]
    simp only [Arena.allocBottom, Arena.fresh, firstBlock, hbase, Option.bind_eq_bind,
      Option.bind_some, Nat.sub_self, halign, hn', pure, not_lt.mpr hn, if_false]
    rfl
  rw [run, List.foldl_cons, List.foldl_nil, next, fresh, halloc]
  rfl

/-- A reset makes the handle to the block stale. -/
theorem resetBlock_detected : ((fresh smallBuffer zeroed).run [.allocBottomBytes 8]).Detects
    [.reset] (((fresh smallBuffer zeroed).run [.allocBottomBytes 8]).issue (firstBlock 8) 0) := by
  have hroom : 8 ≤ smallBuffer.capacity := by decide
  refine (detects_iff ?_ (by simp) (congrArg returned (run_holdingFirst hroom))
    (show 0 < 8 by decide)).mpr fun _ => ?_
  · exact admissible_cons.mpr ⟨trivial, admissible_cons.mpr ⟨trivial, admissible_nil _⟩⟩
  · rw [run_append, run_holdingFirst hroom]
    exact Nat.zero_le _

/-- **The handle to a block that the persistent region takes over still resolves.** -/
theorem coveredBlock_undetected :
    (fresh smallBuffer zeroed).Admissible [.allocBottomBytes 8, .resizePersistent 32] ∧
    ((fresh smallBuffer zeroed).run [.allocBottomBytes 8]).returned = some (firstBlock 8) ∧
    ((fresh smallBuffer zeroed).run [.allocBottomBytes 8]).Invalidated [.resizePersistent 32] ∧
    ¬((fresh smallBuffer zeroed).run [.allocBottomBytes 8]).Detects [.resizePersistent 32]
      (((fresh smallBuffer zeroed).run [.allocBottomBytes 8]).issue (firstBlock 8) 0) := by
  have hroom : 8 ≤ smallBuffer.capacity := by decide
  rw [run_holdingFirst hroom]
  have hinv : (holdingFirst smallBuffer zeroed 8).Invalidated [.resizePersistent 32] :=
    ⟨[], .resizePersistent 32, List.prefix_refl _, rfl⟩
  refine ⟨?_, rfl, hinv, fun h => ?_⟩
  · exact admissible_cons.mpr ⟨trivial, admissible_cons.mpr ⟨trivial, admissible_nil _⟩⟩
  · exact absurd (h.1 hinv) (by decide)

end Session

end KeleusmaArena
