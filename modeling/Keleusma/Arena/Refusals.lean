import Keleusma.Arena.Blocks

/-!
# Refused operations

An operation that returns an error leaves the arena as it is: the allocations and the resizes check
before they change anything. Only `zeroDualHeaded` and `zeroAll` write first and look at the epoch
afterwards, so that on a saturated epoch they wipe bytes and refuse (`refused_unchanged_iff`).
-/

namespace KeleusmaArena

open Overflow

namespace Arena

/-- Forget the block that an allocation returned. -/
def discard : Reply Block → Reply Unit
  | (r, a) => (r.map fun _ => (), a)

/-- What an operation replies, with the arena it leaves. -/
def perform (a : Arena) : Operation → Reply Unit
  | .allocBottom layout => discard (a.allocBottom layout)
  | .allocTop layout => discard (a.allocTop layout)
  | .allocBottomBytes n => discard (a.allocBottomBytes n)
  | .allocTopBytes n => discard (a.allocTopBytes n)
  | .reset => a.reset
  | .resetUnchecked => a.resetUnchecked
  | .resetTopUnchecked => a.resetTopUnchecked
  | .resizePersistent n => a.resizePersistent n
  | .resizePersistentCapacity n => a.resizePersistentCapacity n
  | .zeroPersistent => (.ok (), a.zeroPersistent)
  | .zeroPersistentRange start len => a.zeroPersistentRange start len
  | .zeroDualHeaded => a.zeroDualHeaded
  | .zeroAll => a.zeroAll
  | .bottomMark | .topMark => (.ok (), a)
  | .rewindBottom mark => (.ok (), a.rewindBottom mark)
  | .rewindTop mark => (.ok (), a.rewindTop mark)
  | .resetBottom => (.ok (), a.resetBottom)
  | .resetTop => (.ok (), a.resetTop)
  | .forceResetEpoch => (.ok (), a.forceResetEpoch)
  | .clearPeaks => (.ok (), a.clearPeaks)

/-- The operation leaves the arena as it is if it is refused. -/
def KeepsWhenRefused (a : Arena) (op : Operation) : Prop :=
  ∀ e a', a.perform op = (.error e, a') → a' = a

variable {a a' : Arena} {e : ArenaError}

/-! ## Operations that check first -/

theorem discard_error {r : Reply Block} (h : discard r = (.error e, a')) : r = (.error e, a') := by
  obtain ⟨r, b⟩ := r
  cases r with
  | error _ =>
    cases h
    rfl
  | ok _ => cases h

theorem allocBottomBytes_error {n : ℕ} (h : a.allocBottomBytes n = (.error e, a')) : a' = a := by
  unfold allocBottomBytes at h
  split at h
  · cases h
    rfl
  · exact allocBottom_error h

theorem allocTopBytes_error {n : ℕ} (h : a.allocTopBytes n = (.error e, a')) : a' = a := by
  unfold allocTopBytes at h
  split at h
  · cases h
    rfl
  · exact allocTop_error h

theorem resizePersistent_error {n : ℕ} (h : a.resizePersistent n = (.error e, a')) : a' = a := by
  unfold resizePersistent at h
  split_ifs at h
  · cases h
    rfl
  · exact advancing_error h

theorem zeroPersistentRange_error {start len : ℕ}
    (h : a.zeroPersistentRange start len = (.error e, a')) : a' = a := by
  unfold zeroPersistentRange at h
  split at h
  · cases h
    rfl
  · split_ifs at h
    · cases h
    · exact (Prod.mk.inj h).2.symm

/-! ## Operations that write first -/

/-- Zeroing a range changes nothing where it holds zeros already. -/
theorem zeroRange_eq_self_iff (a : Arena) (start len : ℕ) :
    a.zeroRange start len = a ↔ ∀ i, start ≤ i → i < start + len → a.mem i = 0 := by
  constructor
  · intro h i hlo hhi
    have hbyte := congrFun (congrArg mem h) i
    simpa [zeroRange, hlo, hhi] using hbyte.symm
  · intro h
    have hmem : (fun i => if start ≤ i ∧ i < start + len then 0 else a.mem i) = a.mem := by
      funext i
      split_ifs with hi
      · exact (h i hi.1 hi.2).symm
      · rfl
    show { a with mem := _ } = a
    rw [hmem]

/-- On a saturated epoch the bytes are wiped and the operation is refused. -/
theorem zeroed_keeps_iff (start len : ℕ) (change : Arena → Arena) :
    (∀ e a', (a.zeroRange start len).advancing change = (.error e, a') → a' = a) ↔
      ¬(a.nextEpoch = none ∧ ∃ i, start ≤ i ∧ i < start + len ∧ a.mem i ≠ 0) := by
  have hnext : (a.zeroRange start len).nextEpoch = a.nextEpoch := rfl
  cases hepoch : a.nextEpoch with
  | some next => simp [advancing, hnext, hepoch]
  | none =>
    have hadvancing : (a.zeroRange start len).advancing change =
        (.error .epochSaturated, a.zeroRange start len) := by
      simp only [advancing, hnext, hepoch]
    have hkeeps : (∀ e a', (a.zeroRange start len).advancing change = (.error e, a') → a' = a) ↔
        a.zeroRange start len = a := by
      rw [hadvancing]
      constructor
      · intro h
        exact h _ _ rfl
      · rintro h e a' heq
        cases heq
        exact h
    rw [hkeeps, zeroRange_eq_self_iff]
    simp

/-- The operation wipes bytes before it finds the epoch saturated. -/
def WipesRefused (a : Arena) (op : Operation) : Prop :=
  a.nextEpoch = none ∧
    (op = .zeroDualHeaded ∧ (∃ i, a.persistentCapacity ≤ i ∧ i < a.capacity ∧ a.mem i ≠ 0) ∨
      op = .zeroAll ∧ ∃ i < a.capacity, a.mem i ≠ 0)

theorem zeroDualHeaded_keeps_iff :
    a.KeepsWhenRefused .zeroDualHeaded ↔ ¬a.WipesRefused .zeroDualHeaded := by
  unfold KeepsWhenRefused WipesRefused perform zeroDualHeaded
  cases hlen : checkedSub a.capacity a.persistentCapacity with
  | none =>
    rw [checkedSub] at hlen
    split_ifs at hlen with hle
    refine iff_of_true ?_ ?_
    · rintro e a' h
      cases h
      rfl
    · rintro ⟨-, ⟨-, i, hlo, hhi, -⟩ | ⟨h, -⟩⟩
      · omega
      · cases h
  | some len =>
    rw [checkedSub] at hlen
    split_ifs at hlen with hle
    obtain rfl := Option.some.inj hlen
    have hstop : a.persistentCapacity + (a.capacity - a.persistentCapacity) = a.capacity := by omega
    have hiff := @zeroed_keeps_iff a a.persistentCapacity (a.capacity - a.persistentCapacity)
      clearHeadsAndPeaks
    rw [hstop] at hiff
    simpa using hiff

theorem zeroAll_keeps_iff : a.KeepsWhenRefused .zeroAll ↔ ¬a.WipesRefused .zeroAll := by
  have hiff := @zeroed_keeps_iff a 0 a.capacity clearHeadsAndPeaks
  rw [Nat.zero_add] at hiff
  simpa [KeepsWhenRefused, WipesRefused, perform, zeroAll] using hiff

/-- **A refused operation changes nothing**, unless it zeroes bytes on a saturated epoch. -/
theorem refused_unchanged_iff (a : Arena) (op : Operation) :
    a.KeepsWhenRefused op ↔ ¬a.WipesRefused op := by
  have hchecked (hne : op ≠ .zeroDualHeaded) (hne' : op ≠ .zeroAll) : ¬a.WipesRefused op := by
    rintro ⟨-, ⟨h, -⟩ | ⟨h, -⟩⟩
    · exact hne h
    · exact hne' h
  cases op with
  | zeroDualHeaded => exact zeroDualHeaded_keeps_iff
  | zeroAll => exact zeroAll_keeps_iff
  | allocBottom layout =>
    exact iff_of_true (fun e a' h => allocBottom_error (discard_error h)) (hchecked nofun nofun)
  | allocTop layout =>
    exact iff_of_true (fun e a' h => allocTop_error (discard_error h)) (hchecked nofun nofun)
  | allocBottomBytes n =>
    exact iff_of_true (fun e a' h => allocBottomBytes_error (discard_error h))
      (hchecked nofun nofun)
  | allocTopBytes n =>
    exact iff_of_true (fun e a' h => allocTopBytes_error (discard_error h)) (hchecked nofun nofun)
  | reset | resetUnchecked =>
    exact iff_of_true (fun e a' h => advancing_error h) (hchecked nofun nofun)
  | resetTopUnchecked =>
    refine iff_of_true (fun e a' h => ?_) (hchecked nofun nofun)
    rw [perform, resetTopUnchecked] at h
    exact advancing_error h
  | resizePersistent n =>
    exact iff_of_true (fun e a' h => resizePersistent_error h) (hchecked nofun nofun)
  | resizePersistentCapacity n =>
    exact iff_of_true (fun e a' h => resizePersistentCapacity_error h) (hchecked nofun nofun)
  | zeroPersistentRange start len =>
    exact iff_of_true (fun e a' h => zeroPersistentRange_error h) (hchecked nofun nofun)
  | zeroPersistent | bottomMark | topMark | rewindBottom mark | rewindTop mark | resetBottom
  | resetTop | forceResetEpoch | clearPeaks =>
    exact iff_of_true (fun e a' h => by cases h) (hchecked nofun nofun)

/-- An arena on its last epoch with a byte in the persistent region. -/
def lastEpoch : Arena :=
  { fresh Session.smallBuffer (fun i => if i = 0 then 7 else 0) with
    persistentCapacity := 8
    bottomTop := 8
    epoch := epochMax }

/-- **The refused wipe**: `zeroAll` returns an error, and the byte is gone. -/
theorem zeroAll_wipes : ¬lastEpoch.KeepsWhenRefused .zeroAll := by
  intro h
  have hsame := h .epochSaturated (lastEpoch.zeroRange 0 lastEpoch.capacity) rfl
  exact absurd (congrFun (congrArg mem hsame) 0) (by decide)

end Arena

end KeleusmaArena
