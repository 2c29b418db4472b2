import Keleusma.Arena.Heads

/-!
# Sessions of an arena

A session is a sequence of operations on one arena. Beside the arena it keeps what the callers
hold: the blocks of either end that no operation has reclaimed since they were allocated, and the
marks that were taken. A resize that moves the bytes of the bottom end moves its blocks along.
-/

namespace KeleusmaArena

open Overflow

/-- The operations on an arena; a rewind carries the mark it is given. -/
inductive Operation
  | allocBottom (layout : Layout) | allocTop (layout : Layout)
  | allocBottomBytes (n : ℕ) | allocTopBytes (n : ℕ)
  | reset | resetUnchecked | resetTopUnchecked
  | resizePersistent (newSize : ℕ) | resizePersistentCapacity (newSize : ℕ)
  | zeroPersistent | zeroPersistentRange (start len : ℕ) | zeroDualHeaded | zeroAll
  | bottomMark | topMark | rewindBottom (mark : ℕ) | rewindTop (mark : ℕ)
  | resetBottom | resetTop | forceResetEpoch | clearPeaks

/-- A session: the arena and what its callers hold. -/
structure Session where
  arena : Arena
  /-- The block the last operation returned. -/
  returned : Option Block
  bottomBlocks : List Block
  topBlocks : List Block
  bottomMarks : List ℕ
  topMarks : List ℕ

namespace Session

/-- No operation has been called. -/
def fresh (buffer : Buffer) (mem : ℕ → UInt8) : Session :=
  ⟨.fresh buffer mem, none, [], [], [], []⟩

/-! ## What the callers hold after an operation -/

/-- An allocation from the bottom end. -/
def holdBottom (s : Session) : Reply Block → Session
  | (.ok b, a) => { s with arena := a, returned := some b, bottomBlocks := b :: s.bottomBlocks }
  | (.error _, a) => { s with arena := a, returned := none }

/-- An allocation from the top end. -/
def holdTop (s : Session) : Reply Block → Session
  | (.ok b, a) => { s with arena := a, returned := some b, topBlocks := b :: s.topBlocks }
  | (.error _, a) => { s with arena := a, returned := none }

/-- An operation that reclaims blocks if it succeeds. -/
def reclaim (s : Session) (bottom top : List Block) : Reply Unit → Session
  | (.ok (), a) => { s with arena := a, returned := none, bottomBlocks := bottom, topBlocks := top }
  | (.error _, a) => { s with arena := a, returned := none }

/-- A block that moves with the boundary of the persistent region. -/
def shift (old newSize : ℕ) (b : Block) : Block := { b with offset := b.offset + newSize - old }

/-- One operation. -/
def next (s : Session) : Operation → Session
  | .allocBottom layout => s.holdBottom (s.arena.allocBottom layout)
  | .allocTop layout => s.holdTop (s.arena.allocTop layout)
  | .allocBottomBytes n => s.holdBottom (s.arena.allocBottomBytes n)
  | .allocTopBytes n => s.holdTop (s.arena.allocTopBytes n)
  | .reset => s.reclaim [] [] s.arena.reset
  | .resetUnchecked => s.reclaim [] [] s.arena.resetUnchecked
  | .resetTopUnchecked => s.reclaim s.bottomBlocks [] s.arena.resetTopUnchecked
  | .resizePersistent n => s.reclaim [] [] (s.arena.resizePersistent n)
  | .resizePersistentCapacity n =>
    s.reclaim (s.bottomBlocks.map (shift s.arena.persistentCapacity n)) s.topBlocks
      (s.arena.resizePersistentCapacity n)
  | .zeroPersistent => { s with arena := s.arena.zeroPersistent, returned := none }
  | .zeroPersistentRange start len =>
    s.reclaim s.bottomBlocks s.topBlocks (s.arena.zeroPersistentRange start len)
  | .zeroDualHeaded => s.reclaim [] [] s.arena.zeroDualHeaded
  | .zeroAll => s.reclaim [] [] s.arena.zeroAll
  | .bottomMark => { s with returned := none, bottomMarks := s.arena.bottomTop :: s.bottomMarks }
  | .topMark => { s with returned := none, topMarks := s.arena.topTop :: s.topMarks }
  | .rewindBottom mark =>
    let a := s.arena.rewindBottom mark
    { s with
      arena := a
      returned := none
      bottomBlocks := s.bottomBlocks.filter fun b => b.stop ≤ a.bottomTop }
  | .rewindTop mark =>
    let a := s.arena.rewindTop mark
    { s with
      arena := a
      returned := none
      topBlocks := s.topBlocks.filter fun b => a.topTop ≤ b.offset }
  | .resetBottom => { s with arena := s.arena.resetBottom, returned := none, bottomBlocks := [] }
  | .resetTop => { s with arena := s.arena.resetTop, returned := none, topBlocks := [] }
  | .forceResetEpoch =>
    { s with arena := s.arena.forceResetEpoch, returned := none, bottomBlocks := [], topBlocks := [] }
  | .clearPeaks => { s with arena := s.arena.clearPeaks, returned := none }

/-- The session after a sequence of operations. -/
def run (s : Session) (ops : List Operation) : Session := ops.foldl next s

/-- A rewind gets a mark that was taken from this arena. -/
def Admits (s : Session) : Operation → Prop
  | .rewindBottom mark => mark ∈ s.bottomMarks
  | .rewindTop mark => mark ∈ s.topMarks
  | _ => True

instance (s : Session) (op : Operation) : Decidable (s.Admits op) :=
  match op with
  | .rewindBottom mark => inferInstanceAs (Decidable (mark ∈ s.bottomMarks))
  | .rewindTop mark => inferInstanceAs (Decidable (mark ∈ s.topMarks))
  | .allocBottom _ | .allocTop _ | .allocBottomBytes _ | .allocTopBytes _ | .reset
  | .resetUnchecked | .resetTopUnchecked | .resizePersistent _ | .resizePersistentCapacity _
  | .zeroPersistent | .zeroPersistentRange _ _ | .zeroDualHeaded | .zeroAll | .bottomMark
  | .topMark | .resetBottom | .resetTop | .forceResetEpoch | .clearPeaks => isTrue trivial

/-- Every rewind of the sequence gets a mark that was taken before it. -/
def Admissible (s : Session) (ops : List Operation) : Prop :=
  ∀ p op, p ++ [op] <+: ops → (s.run p).Admits op

theorem run_append (s : Session) (p q : List Operation) : s.run (p ++ q) = (s.run p).run q :=
  List.foldl_append

theorem run_snoc (s : Session) (p : List Operation) (op : Operation) :
    s.run (p ++ [op]) = (s.run p).next op := run_append s p [op]

/-- Where a prefix of a sequence ends. -/
theorem snoc_prefix_cons {p l : List Operation} {op op' : Operation} :
    p ++ [op] <+: op' :: l ↔ p = [] ∧ op = op' ∨ ∃ p', p = op' :: p' ∧ p' ++ [op] <+: l := by
  cases p with
  | nil => simp
  | cons x p => simp [and_assoc]

/-- A sequence is admissible when its first operation is admitted and the rest is admissible
after it. -/
theorem admissible_cons {s : Session} {op : Operation} {ops : List Operation} :
    s.Admissible (op :: ops) ↔ s.Admits op ∧ (s.next op).Admissible ops := by
  constructor
  · intro h
    refine ⟨h [] op (snoc_prefix_cons.mpr (.inl ⟨rfl, rfl⟩)), fun p op' hp => ?_⟩
    exact h (op :: p) op' (snoc_prefix_cons.mpr (.inr ⟨p, rfl, hp⟩))
  · rintro ⟨h, hs⟩ p op' hp
    rcases snoc_prefix_cons.mp hp with ⟨rfl, rfl⟩ | ⟨p', rfl, hp'⟩
    · exact h
    · exact hs p' op' hp'

theorem admissible_nil (s : Session) : s.Admissible [] := fun p op hp => by simp at hp

end Session

/-! ## Soundness of a state -/

/-- The heads are in order. -/
structure Arena.Ordered (a : Arena) : Prop where
  bottom : a.persistentCapacity ≤ a.bottomTop
  heads : a.bottomTop ≤ a.topTop
  top : a.topTop ≤ a.capacity

/-- The address of the block is a multiple of its alignment. -/
def Block.Aligned (a : Arena) (b : Block) : Prop := b.layout.align ∣ a.buffer.base + b.offset

/-- The block lies in the dual-headed region. -/
def Block.Inside (a : Arena) (b : Block) : Prop :=
  a.persistentCapacity ≤ b.offset ∧ b.stop ≤ a.capacity

/-- The blocks share no byte. -/
def Block.Apart (b c : Block) : Prop := b.stop ≤ c.offset ∨ c.stop ≤ b.offset

/-- **A sound session**: the heads are in order, the block just returned is aligned and lies in
the dual-headed region, and the blocks that no operation has reclaimed share no byte. -/
structure Session.Sound (s : Session) : Prop where
  ordered : s.arena.Ordered
  returned : ∀ b, s.returned = some b → b.Aligned s.arena ∧ b.Inside s.arena
  apart : (s.bottomBlocks ++ s.topBlocks).Pairwise Block.Apart

/-! ## The allocations -/

namespace Arena

/-- **The bottom allocation** returns an aligned block between the old head and the new one, which
does not pass the top head. -/
theorem allocBottom_ok {a a' : Arena} {layout : Layout} {b : Block}
    (h : a.allocBottom layout = (.ok b, a')) :
    b.layout = layout ∧ b.Aligned a ∧ a.bottomTop ≤ b.offset ∧ b.stop ≤ a.topTop ∧
      ∃ peak, a' = { a with bottomTop := b.stop, bottomPeak := peak } := by
  dsimp only [allocBottom] at h
  split at h
  · cases h
  next offset newTop hnew =>
    obtain ⟨cur, hcur, hnew⟩ := Option.bind_eq_some_iff.mp hnew
    obtain ⟨up, hup, hnew⟩ := Option.bind_eq_some_iff.mp hnew
    obtain ⟨stop, hstop, hnew⟩ := Option.bind_eq_some_iff.mp hnew
    cases hnew
    rw [(checkedAdd_eq_some.mp hcur).2] at hup
    have hup := (checkedAdd_eq_some.mp hup).2
    have hstop := (checkedAdd_eq_some.mp hstop).2
    obtain ⟨hdvd, -, hlt⟩ := layout.ldiff_align up
    split at h
    · cases h
    next hle =>
      cases h
      have halign : 0 < layout.align := by
        obtain ⟨k, hk⟩ := layout.align_pow
        rw [hk]
        exact Nat.two_pow_pos k
      -- Rounding up from the head does not fall below it.
      have hge : a.buffer.base + a.bottomTop ≤ Nat.ldiff up (layout.align - 1) := by omega
      refine ⟨rfl, ?_, ?_, ?_, if a.bottomPeak < newTop then newTop else a.bottomPeak, ?_⟩
      · show layout.align ∣ a.buffer.base + (Nat.ldiff up (layout.align - 1) - a.buffer.base)
        rwa [Nat.add_sub_cancel' (by omega)]
      · show a.bottomTop ≤ Nat.ldiff up (layout.align - 1) - a.buffer.base
        omega
      · rw [hstop] at hle
        exact not_lt.mp hle
      · rw [hstop]
        rfl

/-- **The top allocation** returns an aligned block below the old head, and its start is the new
head, which does not pass the bottom head. -/
theorem allocTop_ok {a a' : Arena} {layout : Layout} {b : Block}
    (h : a.allocTop layout = (.ok b, a')) :
    b.layout = layout ∧ b.Aligned a ∧ a.bottomTop ≤ b.offset ∧ b.stop ≤ a.topTop ∧
      ∃ low, a' = { a with topTop := b.offset, topPeakLow := low } := by
  dsimp only [allocTop] at h
  split at h
  · cases h
  next newEnd hnew =>
    obtain ⟨stop, hsub, hnew⟩ := Option.bind_eq_some_iff.mp hnew
    have hnew := (checkedAdd_eq_some.mp hnew).2
    rw [checkedSub] at hsub
    split_ifs at hsub with hsize
    have hstop := (Option.some.inj hsub).symm
    obtain ⟨hdvd, hle, -⟩ := layout.ldiff_align newEnd
    split at h
    · cases h
    next hbase =>
      split at h
      · cases h
      next hhead =>
        cases h
        refine ⟨rfl, ?_, not_lt.mp hhead, ?_, _, rfl⟩
        · show layout.align ∣ a.buffer.base + (Nat.ldiff newEnd (layout.align - 1) - a.buffer.base)
          rwa [Nat.add_sub_cancel' (not_lt.mp hbase)]
        · show Nat.ldiff newEnd (layout.align - 1) - a.buffer.base + layout.size ≤ a.topTop
          omega

/-- An allocation that fails leaves the arena as it is. -/
theorem allocBottom_error {a a' : Arena} {layout : Layout} {e : ArenaError}
    (h : a.allocBottom layout = (.error e, a')) : a' = a := by
  dsimp only [allocBottom] at h
  split at h
  · cases h
    rfl
  · split at h
    · cases h
      rfl
    · cases h

theorem allocTop_error {a a' : Arena} {layout : Layout} {e : ArenaError}
    (h : a.allocTop layout = (.error e, a')) : a' = a := by
  dsimp only [allocTop] at h
  split at h
  · cases h
    rfl
  · split at h
    · cases h
      rfl
    · split at h
      · cases h
        rfl
      · cases h

end Arena

end KeleusmaArena
