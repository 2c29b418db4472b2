import Keleusma.Logic.Overflow
import Mathlib.Data.Nat.Bitwise
import Mathlib.Data.List.Basic

/-!
# The dual-headed arena

An arena hands out blocks of one buffer from both ends. Its persistent region lies at the start of
the buffer; the bottom head grows upward from the end of that region and the top head downward
from the end of the buffer. Positions are offsets into the buffer, and alignment is computed on
addresses. An epoch counts the operations that reclaim what handles may point to.
-/

namespace KeleusmaArena

open Overflow

/-- A memory layout: its alignment is a power of two. -/
structure Layout where
  size : ℕ
  align : ℕ
  align_pow : ∃ k, align = 2 ^ k

/-- Bytes need no alignment. -/
theorem one_eq_two_pow : ∃ k, 1 = 2 ^ k := ⟨0, rfl⟩

/-- A buffer in the address space of the host, whose `usize` has the given number of bits. An
allocated object takes up less than half of the address space and does not reach its end. -/
structure Buffer where
  usizeBits : ℕ
  base : ℕ
  capacity : ℕ
  capacity_lt : 2 * capacity < 2 ^ usizeBits
  end_lt : base + capacity < 2 ^ usizeBits

/-- The largest epoch. -/
def epochMax : ℕ := 2 ^ 64 - 1

/-- The arena: its buffer, the heads, their peaks, and the epoch. -/
structure Arena where
  buffer : Buffer
  /-- The bytes of the buffer, by offset. -/
  mem : ℕ → UInt8
  persistentCapacity : ℕ
  bottomTop : ℕ
  topTop : ℕ
  bottomPeak : ℕ
  topPeakLow : ℕ
  epoch : ℕ

/-- Why an operation is refused. -/
inductive ArenaError
  | allocError | exceedsCapacity | epochSaturated | dualHeadedOverlap
  /-- An arithmetic overflow, which panics. -/
  | panicked
  deriving DecidableEq, Repr

/-- A block that an allocation has returned. -/
structure Block where
  offset : ℕ
  layout : Layout

/-- The offset after the block. -/
def Block.stop (b : Block) : ℕ := b.offset + b.layout.size

/-- What an operation returns, with the arena it leaves. -/
abbrev Reply (α : Type) : Type := Except ArenaError α × Arena

namespace Arena

/-- The arena over a fresh buffer. -/
def fresh (buffer : Buffer) (mem : ℕ → UInt8) : Arena where
  buffer := buffer
  mem := mem
  persistentCapacity := 0
  bottomTop := 0
  topTop := buffer.capacity
  bottomPeak := 0
  topPeakLow := buffer.capacity
  epoch := 0

/-- The length of the buffer. -/
def capacity (a : Arena) : ℕ := a.buffer.capacity

/-- The next epoch, unless the counter is saturated. -/
def nextEpoch (a : Arena) : Option ℕ := if a.epoch < epochMax then some (a.epoch + 1) else none

/-- Overwrite a range with zeros. -/
def zeroRange (a : Arena) (start len : ℕ) : Arena :=
  { a with mem := fun i => if start ≤ i ∧ i < start + len then 0 else a.mem i }

/-- Move a range to another place; the ranges may overlap. -/
def copyRange (a : Arena) (src dst len : ℕ) : Arena :=
  { a with mem := fun i => if dst ≤ i ∧ i < dst + len then a.mem (src + (i - dst)) else a.mem i }

/-! ## Usage -/

/-- What the two heads share. -/
def dualHeadedCapacity (a : Arena) : ℕ := a.capacity - a.persistentCapacity

/-- The bytes in use at the bottom end. -/
def bottomUsed (a : Arena) : ℕ := a.bottomTop - a.persistentCapacity

/-- The bytes in use at the top end. -/
def topUsed (a : Arena) : ℕ := a.capacity - a.topTop

/-! ## Allocation -/

/-- Allocate from the bottom end. -/
def allocBottom (a : Arena) (layout : Layout) : Reply Block :=
  let bits := a.buffer.usizeBits
  let alignMask := layout.align - 1
  let newTop : Option (ℕ × ℕ) := do
    let curAddr ← checkedAdd bits a.buffer.base a.bottomTop
    let alignedAddr := Nat.ldiff (← checkedAdd bits curAddr alignMask) alignMask
    let alignedOffset := alignedAddr - a.buffer.base
    return (alignedOffset, ← checkedAdd bits alignedOffset layout.size)
  match newTop with
  | none => (.error .allocError, a)
  | some (alignedOffset, newTop) =>
    if a.topTop < newTop then (.error .allocError, a)
    else (.ok ⟨alignedOffset, layout⟩,
      { a with
        bottomTop := newTop
        bottomPeak := if a.bottomPeak < newTop then newTop else a.bottomPeak })

/-- Allocate from the top end. -/
def allocTop (a : Arena) (layout : Layout) : Reply Block :=
  let alignMask := layout.align - 1
  let newEnd : Option ℕ := do
    checkedAdd a.buffer.usizeBits a.buffer.base (← checkedSub a.topTop layout.size)
  match newEnd with
  | none => (.error .allocError, a)
  | some newEndAddr =>
    let alignedAddr := Nat.ldiff newEndAddr alignMask
    if alignedAddr < a.buffer.base then (.error .allocError, a)
    else
      let alignedOffset := alignedAddr - a.buffer.base
      if alignedOffset < a.bottomTop then (.error .allocError, a)
      else (.ok ⟨alignedOffset, layout⟩,
        { a with
          topTop := alignedOffset
          topPeakLow := if alignedOffset < a.topPeakLow then alignedOffset else a.topPeakLow })

/-- The layout of a byte block: it must not exceed half of the address space. -/
def byteLayout (a : Arena) (n : ℕ) : Option Layout :=
  if 2 * n < 2 ^ a.buffer.usizeBits then some ⟨n, 1, 0, rfl⟩ else none

/-- Allocate bytes at the bottom end. -/
def allocBottomBytes (a : Arena) (n : ℕ) : Reply Block :=
  match a.byteLayout n with
  | none => (.error .allocError, a)
  | some layout => a.allocBottom layout

/-- Allocate bytes at the top end. -/
def allocTopBytes (a : Arena) (n : ℕ) : Reply Block :=
  match a.byteLayout n with
  | none => (.error .allocError, a)
  | some layout => a.allocTop layout

theorem allocBottomBytes_cases (a : Arena) (n : ℕ) :
    a.allocBottomBytes n = (.error .allocError, a) ∨
      ∃ layout, a.allocBottomBytes n = a.allocBottom layout := by
  unfold allocBottomBytes
  cases a.byteLayout n with
  | none => exact .inl rfl
  | some layout => exact .inr ⟨layout, rfl⟩

theorem allocTopBytes_cases (a : Arena) (n : ℕ) :
    a.allocTopBytes n = (.error .allocError, a) ∨
      ∃ layout, a.allocTopBytes n = a.allocTop layout := by
  unfold allocTopBytes
  cases a.byteLayout n with
  | none => exact .inl rfl
  | some layout => exact .inr ⟨layout, rfl⟩

/-! ## Reclaiming both ends -/

/-- Advance the epoch and make the change that goes with it. -/
def advancing (a : Arena) (change : Arena → Arena) : Reply Unit :=
  match a.nextEpoch with
  | none => (.error .epochSaturated, a)
  | some next => (.ok (), { change a with epoch := next })

/-- Both heads at the ends of the dual-headed region. -/
def clearHeads (a : Arena) : Arena :=
  { a with bottomTop := a.persistentCapacity, topTop := a.capacity }

/-- Both heads and both watermarks at the ends of the dual-headed region. -/
def clearHeadsAndPeaks (a : Arena) : Arena :=
  { a.clearHeads with bottomPeak := a.persistentCapacity, topPeakLow := a.capacity }

/-- Reclaim both ends, in a new epoch. -/
def reset (a : Arena) : Reply Unit := a.advancing clearHeads

/-- Reclaim both ends, in a new epoch, without a claim on the references to them. -/
def resetUnchecked (a : Arena) : Reply Unit := a.advancing clearHeads

/-- Reclaim the top end, in a new epoch. -/
def resetTopUnchecked (a : Arena) : Reply Unit :=
  a.advancing fun a => { a with topTop := a.capacity }

/-- Resize the persistent region and discard what both ends hold. -/
def resizePersistent (a : Arena) (newSize : ℕ) : Reply Unit :=
  if a.capacity < newSize then (.error .exceedsCapacity, a)
  else a.advancing fun a => clearHeadsAndPeaks { a with persistentCapacity := newSize }

/-- Resize the persistent region and move the bytes of the bottom end along with its boundary. -/
def resizePersistentCapacity (a : Arena) (newSize : ℕ) : Reply Unit :=
  if a.capacity < newSize then (.error .exceedsCapacity, a)
  else
    let old := a.persistentCapacity
    if newSize = old then (.ok (), a)
    else
      match checkedSub a.bottomTop old with
      | none => (.error .panicked, a)
      | some bottomLen =>
        match checkedAdd a.buffer.usizeBits newSize bottomLen with
        | none => (.error .panicked, a)
        | some newBottomTop =>
          if a.topTop < newBottomTop then (.error .dualHeadedOverlap, a)
          else a.advancing fun a =>
            { a.copyRange old newSize bottomLen with
              persistentCapacity := newSize
              bottomTop := newBottomTop
              bottomPeak := newBottomTop }

/-! ## Zeroing -/

/-- Clear the persistent region. -/
def zeroPersistent (a : Arena) : Arena := a.zeroRange 0 a.persistentCapacity

/-- Clear a range of the persistent region. -/
def zeroPersistentRange (a : Arena) (start len : ℕ) : Reply Unit :=
  match checkedAdd a.buffer.usizeBits start len with
  | none => (.error .exceedsCapacity, a)
  | some stop =>
    if stop ≤ a.persistentCapacity then (.ok (), a.zeroRange start len)
    else (.error .exceedsCapacity, a)

/-- Zero the dual-headed region and reset it. The bytes are zeroed even when the epoch is
saturated and the reset fails. -/
def zeroDualHeaded (a : Arena) : Reply Unit :=
  match checkedSub a.capacity a.persistentCapacity with
  | none => (.error .panicked, a)
  | some len => (a.zeroRange a.persistentCapacity len).advancing clearHeadsAndPeaks

theorem zeroPersistentRange_cases (a : Arena) (start len : ℕ) :
    (∃ e, a.zeroPersistentRange start len = (.error e, a)) ∨
      a.zeroPersistentRange start len = (.ok (), a.zeroRange start len) := by
  unfold zeroPersistentRange
  cases checkedAdd a.buffer.usizeBits start len with
  | none => exact .inl ⟨_, rfl⟩
  | some stop =>
    dsimp only
    split_ifs
    · exact .inr rfl
    · exact .inl ⟨_, rfl⟩

theorem zeroDualHeaded_cases (a : Arena) :
    a.zeroDualHeaded = (.error .panicked, a) ∨ ∃ len, a.zeroDualHeaded =
      (a.zeroRange a.persistentCapacity len).advancing clearHeadsAndPeaks := by
  unfold zeroDualHeaded
  cases checkedSub a.capacity a.persistentCapacity with
  | none => exact .inl rfl
  | some len => exact .inr ⟨len, rfl⟩

/-- Zero the whole buffer and reset the dual-headed region. -/
def zeroAll (a : Arena) : Reply Unit := (a.zeroRange 0 a.capacity).advancing clearHeadsAndPeaks

/-! ## Marks and rewinds -/

/-- Move the bottom head back to a mark. -/
def rewindBottom (a : Arena) (mark : ℕ) : Arena := { a with bottomTop := min mark a.bottomTop }

/-- Move the top head back to a mark. -/
def rewindTop (a : Arena) (mark : ℕ) : Arena := { a with topTop := max mark a.topTop }

/-- Reclaim the bottom end. -/
def resetBottom (a : Arena) : Arena := { a with bottomTop := a.persistentCapacity }

/-- Reclaim the top end. -/
def resetTop (a : Arena) : Arena := { a with topTop := a.capacity }

/-- Start over at the first epoch. -/
def forceResetEpoch (a : Arena) : Arena := { a.clearHeads with epoch := 0 }

/-- Forget the peaks. -/
def clearPeaks (a : Arena) : Arena := { a with bottomPeak := a.bottomTop, topPeakLow := a.topTop }

/-! ## Liveness -/

/-- Whether the address lies in the region that a reset reclaims. -/
def addrIsEphemeral (a : Arena) (addr : ℕ) : Bool :=
  let modulus := 2 ^ a.buffer.usizeBits
  let persistentEnd := (a.buffer.base + a.persistentCapacity) % modulus
  let capEnd := (a.buffer.base + a.capacity) % modulus
  persistentEnd ≤ addr && addr < capEnd

/-- Whether a handle with the address and the epoch points to live storage: only addresses that a
reset reclaims are gated by the epoch. -/
def addrIsLive (a : Arena) (addr handleEpoch : ℕ) : Bool :=
  let modulus := 2 ^ a.buffer.usizeBits
  let persistentEnd := (a.buffer.base + a.persistentCapacity) % modulus
  let capEnd := (a.buffer.base + a.capacity) % modulus
  if persistentEnd ≤ addr && addr < capEnd then handleEpoch == a.epoch else true

end Arena

/-- A handle to storage: where it points, and the epoch at which it was issued. -/
structure ArenaHandle where
  addr : ℕ
  epoch : ℕ

/-- A handle that is no longer valid. -/
inductive Stale
  | stale
  deriving DecidableEq, Repr

/-- Resolve a handle: the address of its storage, unless it is stale. -/
def ArenaHandle.get (h : ArenaHandle) (a : Arena) : Except Stale ℕ :=
  if a.addrIsLive h.addr h.epoch then .ok h.addr else .error .stale

/-! ## Alignment -/

/-- Clearing the bits below a power of two rounds down to a multiple of it. -/
theorem ldiff_mask (x k : ℕ) : Nat.ldiff x (2 ^ k - 1) = x / 2 ^ k * 2 ^ k := by
  refine Nat.eq_of_testBit_eq fun i => ?_
  rw [Nat.testBit_ldiff, Nat.testBit_two_pow_sub_one, Nat.testBit_mul_two_pow, Nat.testBit_div_two_pow]
  by_cases h : i < k
  · simp [h]
  · have hk : k ≤ i := not_lt.mp h
    simp [h, hk, Nat.sub_add_cancel hk]

/-- An address rounded down to the alignment of the layout. -/
theorem Layout.ldiff_align (l : Layout) (x : ℕ) :
    l.align ∣ Nat.ldiff x (l.align - 1) ∧ Nat.ldiff x (l.align - 1) ≤ x ∧
      x < Nat.ldiff x (l.align - 1) + l.align := by
  obtain ⟨k, hk⟩ := l.align_pow
  rw [hk, ldiff_mask]
  have hpos : 0 < 2 ^ k := Nat.two_pow_pos k
  refine ⟨Dvd.intro_left _ rfl, Nat.div_mul_le_self x _, ?_⟩
  have := Nat.lt_div_mul_add (a := x) hpos
  exact this

end KeleusmaArena
