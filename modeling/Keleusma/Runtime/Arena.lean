import Keleusma.Runtime.Word

/-!
# The arena

Memory is a byte at every address. The arena is one buffer of it: a persistent region at its
start, and behind it two bump allocators, the bottom one growing up (the operand stack and the
frames) and the top one growing down (composite bodies and strings). `Reset` reclaims the top
region by moving its bump pointer back and advancing the epoch.

A handle is an address, a length and the epoch it was issued under. Whether it is live is
decided by the region its address falls in: a handle into the reclaimable region is live in its
own epoch only, and any other handle always is.
-/

namespace Keleusma

/-- A reference to bytes in memory. -/
structure Handle where
  addr : ℕ
  len : ℕ
  epoch : ℕ
  deriving DecidableEq, Repr

/-- The arena's buffer and its allocators, in the memory they live in. Offsets are relative to
`base`. -/
structure Arena where
  base : ℕ
  capacity : ℕ
  persistentCapacity : ℕ
  bottomTop : ℕ
  topTop : ℕ
  epoch : ℕ
  mem : ℕ → UInt8

namespace Arena

/-- The bytes at `addr`. -/
def read (a : Arena) (addr len : ℕ) : List UInt8 := (List.range len).map fun i => a.mem (addr + i)

/-- Write bytes at `addr`. -/
def write (a : Arena) (addr : ℕ) (bytes : List UInt8) : Arena :=
  { a with mem := fun p => if addr ≤ p then bytes.getD (p - addr) (a.mem p) else a.mem p }

/-- The region a reset reclaims. -/
def addrIsEphemeral (a : Arena) (addr : ℕ) : Bool :=
  a.base + a.persistentCapacity ≤ addr && addr < a.base + a.capacity

/-- Whether a handle of an epoch still refers to the address. -/
def addrIsLive (a : Arena) (addr handleEpoch : ℕ) : Bool :=
  !a.addrIsEphemeral addr || handleEpoch == a.epoch

/-- The bytes a handle refers to, unless it is stale. -/
def resolve (a : Arena) (h : Handle) : Option (List UInt8) :=
  if a.addrIsLive h.addr h.epoch then some (a.read h.addr h.len) else none

/-- The bytes in use at the top end. -/
def topUsed (a : Arena) : ℕ := a.capacity - a.topTop

/-- Allocate `n` bytes at the top end; the new bump offset is the offset of the allocation. -/
def allocTop (a : Arena) (n : ℕ) : Option Arena :=
  if n ≤ a.topTop ∧ a.bottomTop ≤ a.topTop - n then some { a with topTop := a.topTop - n }
  else none

/-- Reclaim the top region. The epoch counter saturates at its width. -/
def resetTop (a : Arena) : Arena :=
  if a.epoch + 1 < 2 ^ 64 then { a with topTop := a.capacity, epoch := a.epoch + 1 } else a

/-- The handle of an empty body: a dangling address outside every arena, of no epoch. -/
def emptyHandle : Handle := ⟨1, 0, 0⟩

/-- Allocate a body of the given bytes at the top end. An empty body allocates nothing. -/
def build (a : Arena) (bytes : List UInt8) : Option (Handle × Arena) :=
  if bytes.length = 0 then some (emptyHandle, a)
  else do
    let a' ← a.allocTop bytes.length
    let addr := a'.base + a'.topTop
    return (⟨addr, bytes.length, a'.epoch⟩, a'.write addr bytes)

/-- A view of part of a body. Out of range is reported as a stale handle. -/
def nestedView (a : Arena) (h : Handle) (offset len : ℕ) : Option Handle :=
  if a.addrIsLive h.addr h.epoch then
    if h.len < offset + len then none
    else if len = 0 then some emptyHandle
    else some ⟨h.addr + offset, len, h.epoch⟩
  else none

@[simp] theorem read_length (a : Arena) (addr len : ℕ) : (a.read addr len).length = len := by
  simp [read]

theorem resolve_length {a : Arena} {h : Handle} {bytes : List UInt8}
    (hr : a.resolve h = some bytes) : bytes.length = h.len := by
  unfold resolve at hr
  split at hr
  · cases hr; simp
  · cases hr

/-- An allocation at the top end takes exactly the bytes asked for. -/
theorem allocTop_topTop {a a' : Arena} {n : ℕ} (h : a.allocTop n = some a') :
    a'.topTop + n = a.topTop := by
  unfold allocTop at h
  split at h
  · next hn => cases h; simp only; omega
  · cases h

end Arena

end Keleusma
