import Keleusma.Arena.Admission
import Keleusma.Swap.Host

/-!
# The machine's arena and its heads

The machine works on an arena whose bytes it addresses (`Arena`), and uses of its operations only
those that allocate and reset. The arena that implements them checks every sum and keeps peaks
(`KeleusmaArena.Arena`). Where the two agree on the buffer, the heads and the epoch (`Arena.Shows`),
an operation of the machine succeeds exactly when the one that implements it does, and they agree
again afterwards (`Shows.next`). So whatever the machine does with its arena is an admissible
session of the other, and sound (`Shows.run`).
-/

namespace Keleusma

open KeleusmaArena (Session)
open Overflow

/-! ## Agreement -/

/-- The arena shows the buffer, the heads and the epoch of the one that implements it. -/
structure Arena.Shows (a : Arena) (h : KeleusmaArena.Arena) : Prop where
  base : a.base = h.buffer.base
  capacity : a.capacity = h.capacity
  persistentCapacity : a.persistentCapacity = h.persistentCapacity
  bottomTop : a.bottomTop = h.bottomTop
  topTop : a.topTop = h.topTop
  epoch : a.epoch = h.epoch

/-- An operation of the machine succeeds exactly when the other does, and the arenas agree again.
A refused one leaves both as they were. -/
inductive Arena.Keeps {α : Type} (a : Arena) : Option Arena → KeleusmaArena.Reply α → Prop
  | served {a' : Arena} {x : α} {h' : KeleusmaArena.Arena} (h : a'.Shows h') :
    Keeps a (some a') (.ok x, h')
  | refused {e : KeleusmaArena.ArenaError} {h' : KeleusmaArena.Arena} (h : a.Shows h') :
    Keeps a none (.error e, h')

namespace Arena.Shows

variable {a : Arena} {h : KeleusmaArena.Arena}

theorem topUsed (hs : a.Shows h) : a.topUsed = h.topUsed := by
  rw [Arena.topUsed, KeleusmaArena.Arena.topUsed, hs.capacity, hs.topTop]

theorem dualHeadedCapacity (hs : a.Shows h) : a.dualHeadedCapacity = h.dualHeadedCapacity := by
  rw [Arena.dualHeadedCapacity, KeleusmaArena.Arena.dualHeadedCapacity, hs.capacity,
    hs.persistentCapacity]

/-! ## Liveness -/

/-- The bounds of the region that a reset reclaims do not wrap around. -/
theorem addrIsEphemeral (hs : a.Shows h) (hp : h.persistentCapacity ≤ h.capacity) (addr : ℕ) :
    a.addrIsEphemeral addr = h.addrIsEphemeral addr := by
  have hend := h.buffer.end_lt
  have hcap : h.capacity = h.buffer.capacity := rfl
  rw [Arena.addrIsEphemeral, KeleusmaArena.Arena.addrIsEphemeral, hs.base, hs.capacity,
    hs.persistentCapacity, Nat.mod_eq_of_lt (by omega), Nat.mod_eq_of_lt (by omega)]

/-- **A handle resolves in the machine** exactly when it does in the arena. -/
theorem resolve_isSome (hs : a.Shows h) (hp : h.persistentCapacity ≤ h.capacity) (b : Handle) :
    (a.resolve b).isSome = (KeleusmaArena.ArenaHandle.get ⟨b.addr, b.epoch⟩ h).isOk := by
  have hlive : a.addrIsLive b.addr b.epoch = h.addrIsLive b.addr b.epoch := by
    have heph := hs.addrIsEphemeral hp b.addr
    unfold KeleusmaArena.Arena.addrIsEphemeral at heph
    rw [Arena.addrIsLive, KeleusmaArena.Arena.addrIsLive, heph, hs.epoch]
    dsimp only
    split
    next hin => simp [hin]
    next hout => simp [Bool.eq_false_iff.mpr hout]
  rw [Arena.resolve, KeleusmaArena.ArenaHandle.get, hlive]
  split <;> rfl

/-! ## Allocations -/

/-- Bytes have no alignment to lose, so only the heads decide. -/
theorem allocTop (hs : a.Shows h) (htop : h.topTop ≤ h.capacity) (n : ℕ) :
    a.Keeps (a.allocTop n) (h.allocTopBytes n) := by
  by_cases hfits : h.bottomTop + n ≤ h.topTop
  · obtain ⟨block, low, hserved⟩ := KeleusmaArena.Arena.allocTopBytes_fits htop hfits
    rw [hserved, Arena.allocTop, hs.topTop, hs.bottomTop, if_pos (by omega)]
    exact .served ⟨hs.base, hs.capacity, hs.persistentCapacity, rfl, rfl, hs.epoch⟩
  · rw [Arena.allocTop, hs.topTop, hs.bottomTop, if_neg (by omega)]
    rcases hr : h.allocTopBytes n with ⟨e | b, h'⟩
    · rcases h.allocTopBytes_cases n with hn | ⟨layout, hn⟩
      · cases hr.symm.trans hn
        exact .refused hs
      · obtain rfl := KeleusmaArena.Arena.allocTop_error (hn.symm.trans hr)
        exact .refused hs
    · exact absurd (KeleusmaArena.Arena.allocTopBytes_ok hr) hfits

/-- The machine does not check the sums: where one overflows, the block does not fit either. -/
theorem allocBottom (hs : a.Shows h) (htop : h.topTop ≤ h.capacity)
    (hheads : h.bottomTop ≤ h.topTop) (layout : KeleusmaArena.Layout)
    (halign : layout.align ≤ 2 ^ h.buffer.usizeBits) :
    a.Keeps (a.allocBottom layout.size layout.align) (h.allocBottom layout) := by
  obtain ⟨k, hk⟩ := layout.align_pow
  have hend := h.buffer.end_lt
  have hcap : h.capacity = h.buffer.capacity := rfl
  have hpos : 0 < layout.align := hk ▸ Nat.two_pow_pos k
  have hcur : checkedAdd h.buffer.usizeBits h.buffer.base h.bottomTop =
      some (h.buffer.base + h.bottomTop) := if_pos (by omega)
  unfold KeleusmaArena.Arena.allocBottom Arena.allocBottom
  rw [hs.base, hs.bottomTop, hs.topTop]
  simp only [hcur, Option.bind_eq_bind, Option.bind_some]
  generalize hx : h.buffer.base + h.bottomTop = x
  by_cases hover : x + (layout.align - 1) < 2 ^ h.buffer.usizeBits
  · have hmask : checkedAdd h.buffer.usizeBits x (layout.align - 1) =
        some (x + (layout.align - 1)) := if_pos hover
    have hround : Nat.ldiff (x + (layout.align - 1)) (layout.align - 1) =
        (x + (layout.align - 1)) / layout.align * layout.align := by
      rw [hk, KeleusmaArena.ldiff_mask]
    rw [hmask, Option.bind_some, hround]
    generalize (x + (layout.align - 1)) / layout.align * layout.align - h.buffer.base = offset
    by_cases hstop : offset + layout.size < 2 ^ h.buffer.usizeBits
    · have hsum : checkedAdd h.buffer.usizeBits offset layout.size =
          some (offset + layout.size) := if_pos hstop
      simp only [hsum, Option.bind_some, Option.pure_def]
      by_cases hfits : offset + layout.size ≤ h.topTop
      · rw [if_pos hfits, if_neg (not_lt.mpr hfits)]
        exact .served ⟨rfl, hs.capacity, hs.persistentCapacity, rfl, rfl, hs.epoch⟩
      · rw [if_neg hfits, if_pos (not_le.mp hfits)]
        exact .refused hs
    · have hsum : checkedAdd h.buffer.usizeBits offset layout.size = none := if_neg hstop
      simp only [hsum, Option.bind_none]
      rw [if_neg (by omega)]
      exact .refused hs
  · -- rounding up reaches the end of the address space, which lies beyond the buffer
    have hmask : checkedAdd h.buffer.usizeBits x (layout.align - 1) = none := if_neg hover
    have hlarge : 2 ^ h.buffer.usizeBits ≤
        (x + (layout.align - 1)) / layout.align * layout.align := by
      have hdvd : layout.align ∣ 2 ^ h.buffer.usizeBits := by
        rw [hk] at halign ⊢
        exact Nat.pow_dvd_pow 2 ((Nat.pow_le_pow_iff_right (by decide)).mp halign)
      calc 2 ^ h.buffer.usizeBits
          = 2 ^ h.buffer.usizeBits / layout.align * layout.align := (Nat.div_mul_cancel hdvd).symm
        _ ≤ _ := Nat.mul_le_mul_right _ (Nat.div_le_div_right (not_lt.mp hover))
    simp only [hmask, Option.bind_none]
    rw [if_neg (by omega)]
    exact .refused hs

/-! ## Resets -/

theorem nextEpoch (hs : a.Shows h) :
    h.nextEpoch = if a.epoch + 1 < 2 ^ 64 then some (a.epoch + 1) else none := by
  have hmax : KeleusmaArena.epochMax = 2 ^ 64 - 1 := rfl
  rw [KeleusmaArena.Arena.nextEpoch, hs.epoch]
  by_cases hlt : h.epoch + 1 < 2 ^ 64
  · rw [if_pos hlt, if_pos (by omega)]
  · rw [if_neg hlt, if_neg (by omega)]

theorem resetUnchecked (hs : a.Shows h) : a.Keeps a.resetUnchecked h.resetUnchecked := by
  rw [Arena.resetUnchecked, KeleusmaArena.Arena.resetUnchecked, KeleusmaArena.Arena.advancing,
    hs.nextEpoch]
  split
  · exact .served ⟨hs.base, hs.capacity, hs.persistentCapacity, hs.persistentCapacity, hs.capacity,
      rfl⟩
  · exact .refused hs

/-- The machine leaves a reset that is refused without notice. -/
theorem resetTop (hs : a.Shows h) : a.resetTop.Shows h.resetTopUnchecked.2 := by
  rw [Arena.resetTop, KeleusmaArena.Arena.resetTopUnchecked, KeleusmaArena.Arena.advancing,
    hs.nextEpoch]
  split
  · exact ⟨hs.base, hs.capacity, hs.persistentCapacity, hs.bottomTop, hs.capacity, rfl⟩
  · exact hs

end Arena.Shows

/-! ## Runs -/

/-- What the machine does with its arena. -/
inductive ArenaMove
  | allocTop (n : ℕ) | allocBottom (layout : KeleusmaArena.Layout) | resetTop | resetUnchecked

/-- The operation that implements it. -/
def ArenaMove.operation : ArenaMove → KeleusmaArena.Operation
  | .allocTop n => .allocTopBytes n
  | .allocBottom layout => .allocBottom layout
  | .resetTop => .resetTopUnchecked
  | .resetUnchecked => .resetUnchecked

/-- The arena of the machine afterwards. -/
def Arena.move (a : Arena) : ArenaMove → Arena
  | .allocTop n => (a.allocTop n).getD a
  | .allocBottom layout => (a.allocBottom layout.size layout.align).getD a
  | .resetTop => a.resetTop
  | .resetUnchecked => a.resetUnchecked.getD a

/-- An alignment is a `usize`. -/
def ArenaMove.Aligned (bits : ℕ) : ArenaMove → Prop
  | .allocBottom layout => layout.align ≤ 2 ^ bits
  | _ => True

theorem Arena.Keeps.shows {α : Type} {a : Arena} {m : Option Arena} {r : KeleusmaArena.Reply α}
    (h : a.Keeps m r) : (m.getD a).Shows r.2 := by
  cases h with
  | served h => exact h
  | refused h => exact h

section

variable {a : Arena} {s : Session}

theorem holdBottom_arena (r : KeleusmaArena.Reply KeleusmaArena.Block) :
    (s.holdBottom r).arena = r.2 := by
  rcases r with ⟨_ | _, _⟩ <;> rfl

theorem holdTop_arena (r : KeleusmaArena.Reply KeleusmaArena.Block) :
    (s.holdTop r).arena = r.2 := by
  rcases r with ⟨_ | _, _⟩ <;> rfl

theorem reclaim_arena (bottom top : List KeleusmaArena.Block) (r : KeleusmaArena.Reply Unit) :
    (s.reclaim bottom top r).arena = r.2 := by
  rcases r with ⟨_ | _, _⟩ <;> rfl

/-- The machine replays no marks, so everything it does is admitted. -/
theorem admits_operation (m : ArenaMove) : s.Admits m.operation := by cases m <;> trivial

theorem inv_operation (hinv : s.Inv) (m : ArenaMove) : (s.next m.operation).Inv :=
  hinv.next (admits_operation m) fun _ h => by cases m <;> cases h

/-- **One operation of the machine is one of the session.** -/
theorem Arena.Shows.next (hs : a.Shows s.arena) (hinv : s.Inv) {m : ArenaMove}
    (hm : m.Aligned s.arena.buffer.usizeBits) : (a.move m).Shows (s.next m.operation).arena := by
  have ho := hinv.ordered
  cases m with
  | allocTop n =>
    rw [ArenaMove.operation, Session.next, holdTop_arena]
    exact (hs.allocTop ho.top n).shows
  | allocBottom layout =>
    rw [ArenaMove.operation, Session.next, holdBottom_arena]
    exact (hs.allocBottom ho.top ho.heads layout hm).shows
  | resetTop =>
    rw [ArenaMove.operation, Session.next, reclaim_arena]
    exact hs.resetTop
  | resetUnchecked =>
    rw [ArenaMove.operation, Session.next, reclaim_arena]
    exact hs.resetUnchecked.shows

/-- **A run of the machine is a run of the session**, which is sound. -/
theorem Arena.Shows.run {buffer : KeleusmaArena.Buffer} {ms : List ArenaMove}
    (hs : a.Shows s.arena) (hinv : s.Inv) (hb : s.Bounds buffer)
    (hms : ∀ m ∈ ms, m.Aligned buffer.usizeBits) :
    (ms.foldl Arena.move a).Shows (s.run (ms.map ArenaMove.operation)).arena ∧
      (s.run (ms.map ArenaMove.operation)).Sound := by
  induction ms generalizing a s with
  | nil => exact ⟨hs, hinv.sound⟩
  | cons m ms ih =>
    have hm : m.Aligned s.arena.buffer.usizeBits := hb.buffer_eq ▸ hms m List.mem_cons_self
    exact ih (hs.next hinv hm) (inv_operation hinv m) (hb.next (admits_operation m))
      fun m' hm' => hms m' (List.mem_cons_of_mem m hm')

end

end Keleusma
