import Keleusma.Arena.Blocks

/-!
# The resize in place

A resize that keeps the contents moves the bytes of the bottom end along with the boundary of the
persistent region. Whatever the ranges of the move have in common, the persistent bytes that stay
persistent, the bytes of the bottom end and those of the top end are what they were
(`resizePersistentCapacity_keeps`); so are the bytes of every block that the callers hold
(`Session.Inv.moved_bytes`).
-/

namespace KeleusmaArena

open Overflow

namespace Arena

/-- The bytes of a range. -/
def bytes (a : Arena) (start stop : ℕ) : List UInt8 :=
  (List.range (stop - start)).map fun i => a.mem (start + i)

theorem bytes_eq_iff {a a' : Arena} {start stop start' stop' : ℕ} :
    a'.bytes start' stop' = a.bytes start stop ↔ stop' - start' = stop - start ∧
      ∀ i < stop - start, a'.mem (start' + i) = a.mem (start + i) := by
  constructor
  · intro h
    have hlen : stop' - start' = stop - start := by
      simpa [bytes] using congrArg List.length h
    refine ⟨hlen, fun i hi => ?_⟩
    have hget := congrArg (·[i]?) h
    simpa [bytes, hlen, hi] using hget
  · rintro ⟨hlen, hmem⟩
    rw [bytes, bytes, hlen]
    apply List.map_congr_left
    intro i hi
    exact hmem i (List.mem_range.mp hi)

@[simp] theorem copyRange_mem (a : Arena) (src dst len i : ℕ) : (a.copyRange src dst len).mem i =
    if dst ≤ i ∧ i < dst + len then a.mem (src + (i - dst)) else a.mem i := rfl

/-- The bytes after a resize in place are those after the move. -/
theorem resizePersistentCapacity_mem {a a' : Arena} {n : ℕ}
    (h : a.resizePersistentCapacity n = (.ok (), a')) (hn : n ≠ a.persistentCapacity) :
    a'.mem = (a.copyRange a.persistentCapacity n a.bottomUsed).mem := by
  dsimp only [resizePersistentCapacity] at h
  split_ifs at h
  · cases h
  · split at h
    · cases h
    next len hlen =>
      rw [checkedSub] at hlen
      split_ifs at hlen
      cases hlen
      split at h
      · cases h
      · split_ifs at h
        · cases h
        obtain ⟨-, rfl⟩ := advancing_ok h
        rfl

/-- **A resize in place keeps the contents.** -/
theorem resizePersistentCapacity_keeps {a a' : Arena} {n : ℕ}
    (h : a.resizePersistentCapacity n = (.ok (), a')) :
    a'.bytes 0 (min a.persistentCapacity n) = a.bytes 0 (min a.persistentCapacity n) ∧
      a'.bytes n a'.bottomTop = a.bytes a.persistentCapacity a.bottomTop ∧
      a'.bytes a.topTop a.capacity = a.bytes a.topTop a.capacity ∧
      a'.persistentCapacity = n ∧ a'.topTop = a.topTop ∧
      a'.bottomUsed = a.bottomUsed ∧ a'.topUsed = a.topUsed := by
  rcases resizePersistentCapacity_ok h with ⟨rfl, rfl⟩ |
    ⟨hn, -, hle, hbuf, hpc, hbt, htt, hover, -, -⟩
  · exact ⟨rfl, rfl, rfl, rfl, rfl, rfl, rfl⟩
  have hmem := resizePersistentCapacity_mem h hn
  have hused : a.bottomUsed = a.bottomTop - a.persistentCapacity := rfl
  refine ⟨?_, ?_, ?_, hpc, htt, ?_, ?_⟩
  · refine bytes_eq_iff.mpr ⟨rfl, fun i hi => ?_⟩
    rw [hmem, copyRange_mem, if_neg (by omega)]
  · refine bytes_eq_iff.mpr ⟨by omega, fun i hi => ?_⟩
    rw [hmem, copyRange_mem, if_pos (by omega), Nat.add_sub_cancel_left]
  · -- The move ends below the top head.
    refine bytes_eq_iff.mpr ⟨rfl, fun i hi => ?_⟩
    rw [hmem, copyRange_mem, if_neg (by omega)]
  · rw [bottomUsed, hpc, hbt, Nat.add_sub_cancel_left, hused]
  · rw [topUsed, topUsed, capacity, capacity, hbuf, htt]

/-- An arena with a persistent region of two bytes and three bytes at the bottom end. -/
def fiveBytes : Arena :=
  ⟨⟨64, 4096, 8, by decide, by decide⟩, fun i => UInt8.ofNat i, 2, 5, 8, 5, 8, 0⟩

/-- The three bytes move up by one, over two of themselves. -/
theorem fiveBytes_grows :
    (fiveBytes.resizePersistentCapacity 3).2.bytes 3 6 = fiveBytes.bytes 2 5 := by
  have h : fiveBytes.resizePersistentCapacity 3 =
      (.ok (), (fiveBytes.resizePersistentCapacity 3).2) := rfl
  exact (resizePersistentCapacity_keeps h).2.1

end Arena

/-- **The bytes of the blocks that the callers hold survive** a resize in place. -/
theorem Session.Inv.moved_bytes {s : Session} (h : s.Inv) {a' : Arena} {n : ℕ}
    (ha : s.arena.resizePersistentCapacity n = (.ok (), a')) :
    (∀ b ∈ s.bottomBlocks, let b' := shift s.arena.persistentCapacity n b
      a'.bytes b'.offset b'.stop = s.arena.bytes b.offset b.stop) ∧
      ∀ b ∈ s.topBlocks, a'.bytes b.offset b.stop = s.arena.bytes b.offset b.stop := by
  obtain ⟨-, hbottom, htop, -⟩ := Arena.resizePersistentCapacity_keeps ha
  obtain ⟨-, hbottom⟩ := Arena.bytes_eq_iff.mp hbottom
  obtain ⟨-, htop⟩ := Arena.bytes_eq_iff.mp htop
  constructor
  · intro b hb
    obtain ⟨hlo, hhi⟩ := h.bottom b hb
    have hstop : b.stop = b.offset + b.layout.size := rfl
    refine Arena.bytes_eq_iff.mpr ⟨?_, fun i hi => ?_⟩
    · show b.offset + n - s.arena.persistentCapacity + b.layout.size - _ = _
      dsimp only [shift]
      omega
    · have hbyte := hbottom (b.offset - s.arena.persistentCapacity + i) (by omega)
      have hsrc : s.arena.persistentCapacity + (b.offset - s.arena.persistentCapacity + i) =
          b.offset + i := by omega
      have hdst : n + (b.offset - s.arena.persistentCapacity + i) =
          b.offset + n - s.arena.persistentCapacity + i := by omega
      rwa [hsrc, hdst] at hbyte
  · intro b hb
    obtain ⟨hlo, hhi⟩ := h.top b hb
    refine Arena.bytes_eq_iff.mpr ⟨rfl, fun i hi => ?_⟩
    have hbyte := htop (b.offset - s.arena.topTop + i) (by omega)
    rwa [show s.arena.topTop + (b.offset - s.arena.topTop + i) = b.offset + i by omega] at hbyte

end KeleusmaArena
