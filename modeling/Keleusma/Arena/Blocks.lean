import Keleusma.Arena.Session
import Mathlib.Data.List.Induction

/-!
# The blocks of an arena

Every operation but one keeps the heads of an arena in order and its blocks apart: a rewind of the
bottom end gives back every byte above its mark, and a mark that was taken before the persistent
region grew lies below the region's end. A session is sound in every state exactly when no such
mark is replayed (`session_sound_iff`).
-/

namespace KeleusmaArena

open Overflow

namespace Arena

/-! ## What the operations change -/

/-- The two arenas agree on the buffer and on the three boundaries. -/
structure SameHeads (a a' : Arena) : Prop where
  buffer : a'.buffer = a.buffer
  persistentCapacity : a'.persistentCapacity = a.persistentCapacity
  bottomTop : a'.bottomTop = a.bottomTop
  topTop : a'.topTop = a.topTop

theorem SameHeads.refl (a : Arena) : a.SameHeads a := ⟨rfl, rfl, rfl, rfl⟩

theorem SameHeads.ordered {a a' : Arena} (h : a.SameHeads a') (ho : a.Ordered) : a'.Ordered := by
  obtain ⟨hb, hp, hbt, htt⟩ := h
  obtain ⟨h₁, h₂, h₃⟩ := ho
  refine ⟨by rw [hp, hbt]; exact h₁, by rw [hbt, htt]; exact h₂, ?_⟩
  rw [htt, capacity, hb]
  exact h₃

/-- An operation that advances the epoch succeeds unless the counter is saturated. -/
theorem advancing_ok {a a' : Arena} {change : Arena → Arena}
    (h : a.advancing change = (.ok (), a')) :
    a.epoch < epochMax ∧ a' = { change a with epoch := a.epoch + 1 } := by
  rw [advancing, nextEpoch] at h
  split_ifs at h with hlt
  · cases h
    exact ⟨hlt, rfl⟩
  · cases h

theorem advancing_error {a a' : Arena} {change : Arena → Arena} {e : ArenaError}
    (h : a.advancing change = (.error e, a')) : a' = a := by
  rw [advancing, nextEpoch] at h
  split_ifs at h
  · cases h
  · cases h
    rfl

/-- **The resize in place** moves the bottom head with the boundary of the persistent region. -/
theorem resizePersistentCapacity_ok {a a' : Arena} {n : ℕ}
    (h : a.resizePersistentCapacity n = (.ok (), a')) : a' = a ∧ n = a.persistentCapacity ∨
      n ≠ a.persistentCapacity ∧ n ≤ a.capacity ∧ a.persistentCapacity ≤ a.bottomTop ∧
      a'.buffer = a.buffer ∧ a'.persistentCapacity = n ∧
      a'.bottomTop = n + (a.bottomTop - a.persistentCapacity) ∧ a'.topTop = a.topTop ∧
      a'.bottomTop ≤ a.topTop ∧ a.epoch < epochMax ∧ a'.epoch = a.epoch + 1 := by
  dsimp only [resizePersistentCapacity] at h
  split_ifs at h with hcap hsame
  · cases h
  · cases h
    exact .inl ⟨rfl, hsame⟩
  · split at h
    · cases h
    next len hlen =>
      rw [checkedSub] at hlen
      split_ifs at hlen with hle
      cases hlen
      split at h
      · cases h
      next newTop hnew =>
        have hnew := (checkedAdd_eq_some.mp hnew).2
        split_ifs at h with hover
        · cases h
        obtain ⟨hlt, rfl⟩ := advancing_ok h
        subst hnew
        exact .inr ⟨hsame, not_lt.mp hcap, hle, rfl, rfl, rfl, rfl, not_lt.mp hover, hlt, rfl⟩

theorem resizePersistentCapacity_error {a a' : Arena} {n : ℕ} {e : ArenaError}
    (h : a.resizePersistentCapacity n = (.error e, a')) : a' = a := by
  dsimp only [resizePersistentCapacity] at h
  split_ifs at h with hcap hsame
  · cases h
    rfl
  · cases h
  · split at h
    · cases h
      rfl
    · split at h
      · cases h
        rfl
      · split_ifs at h
        · cases h
          rfl
        · exact advancing_error h

theorem zeroPersistentRange_sameHeads (a : Arena) (start len : ℕ) :
    a.SameHeads (a.zeroPersistentRange start len).2 := by
  rw [zeroPersistentRange]
  split
  · exact .refl a
  · split_ifs
    · exact ⟨rfl, rfl, rfl, rfl⟩
    · exact .refl a

end Arena

namespace Session

/-! ## The invariant -/

/-- **The invariant of a session**: the blocks of each end lie between its boundary and its head,
and the blocks of one end share no byte. -/
structure Inv (s : Session) : Prop where
  ordered : s.arena.Ordered
  bottom : ∀ b ∈ s.bottomBlocks, s.arena.persistentCapacity ≤ b.offset ∧ b.stop ≤ s.arena.bottomTop
  top : ∀ b ∈ s.topBlocks, s.arena.topTop ≤ b.offset ∧ b.stop ≤ s.arena.capacity
  bottomApart : s.bottomBlocks.Pairwise Block.Apart
  topApart : s.topBlocks.Pairwise Block.Apart
  marks : ∀ m ∈ s.topMarks, m ≤ s.arena.capacity
  returned : ∀ b, s.returned = some b → b.Aligned s.arena ∧ b.Inside s.arena

/-- The invariant makes the session sound: the heads keep the blocks of the two ends apart. -/
theorem Inv.sound {s : Session} (h : s.Inv) : s.Sound where
  ordered := h.ordered
  returned := h.returned
  apart := by
    refine List.pairwise_append.mpr ⟨h.bottomApart, h.topApart, fun b hb c hc => .inl ?_⟩
    have hb := (h.bottom b hb).2
    have hc := (h.top c hc).1
    have := h.ordered.heads
    omega

theorem inv_fresh (buffer : Buffer) (mem : ℕ → UInt8) : (fresh buffer mem).Inv where
  ordered := ⟨le_rfl, Nat.zero_le _, le_rfl⟩
  bottom := List.forall_mem_nil _
  top := List.forall_mem_nil _
  bottomApart := .nil
  topApart := .nil
  marks := List.forall_mem_nil _
  returned := by rintro _ ⟨⟩

variable {s : Session}

/-- An operation that keeps the boundaries keeps the invariant. -/
theorem Inv.sameHeads (h : s.Inv) {a : Arena} (ha : s.arena.SameHeads a) :
    Inv { s with arena := a, returned := none } where
  ordered := ha.ordered h.ordered
  bottom b hb := by
    show a.persistentCapacity ≤ _ ∧ _ ≤ a.bottomTop
    rw [ha.persistentCapacity, ha.bottomTop]
    exact h.bottom b hb
  top b hb := by
    show a.topTop ≤ _ ∧ _ ≤ a.buffer.capacity
    rw [ha.topTop, ha.buffer]
    exact h.top b hb
  bottomApart := h.bottomApart
  topApart := h.topApart
  marks m hm := by
    show m ≤ a.buffer.capacity
    rw [ha.buffer]
    exact h.marks m hm
  returned := by rintro _ ⟨⟩

/-- An operation that reclaims both ends keeps the invariant. -/
theorem Inv.cleared (h : s.Inv) {a : Arena} (hb : a.buffer = s.arena.buffer) (ha : a.Ordered) :
    Inv { s with arena := a, returned := none, bottomBlocks := [], topBlocks := [] } where
  ordered := ha
  bottom := List.forall_mem_nil _
  top := List.forall_mem_nil _
  bottomApart := .nil
  topApart := .nil
  marks m hm := by
    show m ≤ a.buffer.capacity
    rw [hb]
    exact h.marks m hm
  returned := by rintro _ ⟨⟩

/-- An operation that reclaims if it succeeds, and keeps the boundaries if it fails. -/
theorem Inv.reclaim (h : s.Inv) {bottom top : List Block} {r : Reply Unit}
    (hok : ∀ a, r = (.ok (), a) →
      Inv { s with arena := a, returned := none, bottomBlocks := bottom, topBlocks := top })
    (herr : ∀ e a, r = (.error e, a) → s.arena.SameHeads a) : (s.reclaim bottom top r).Inv := by
  obtain ⟨_ | ⟨⟩, a⟩ := r
  · exact h.sameHeads (herr _ a rfl)
  · exact hok a rfl

/-- An operation that advances the epoch and clears the heads, on an arena whose bytes may have
been zeroed. -/
theorem Inv.advancing (h : s.Inv) {a : Arena} (ha : s.arena.SameHeads a) {change : Arena → Arena}
    (hb : (change a).buffer = a.buffer) (ho : (change a).Ordered) :
    (s.reclaim [] [] (a.advancing change)).Inv := by
  refine h.reclaim (fun a' h' => ?_) fun e a' h' => ?_
  · obtain ⟨-, rfl⟩ := Arena.advancing_ok h'
    exact h.cleared (hb.trans ha.buffer) ⟨ho.bottom, ho.heads, ho.top⟩
  · obtain rfl := Arena.advancing_error h'
    exact ha

/-- **A bottom allocation keeps the invariant.** -/
theorem Inv.holdBottom (h : s.Inv) (layout : Layout) :
    (s.holdBottom (s.arena.allocBottom layout)).Inv := by
  rcases hr : s.arena.allocBottom layout with ⟨e | b, a⟩
  · obtain rfl := Arena.allocBottom_error hr
    exact h.sameHeads (.refl _)
  · obtain ⟨-, halign, hlo, hhi, peak, rfl⟩ := Arena.allocBottom_ok hr
    have hstop : b.offset ≤ b.stop := Nat.le_add_right _ _
    have ho := h.ordered
    refine ⟨⟨ho.bottom.trans (hlo.trans hstop), hhi, ho.top⟩, fun c hc => ?_, h.top, ?_, h.topApart,
      h.marks, fun c hc => ?_⟩
    · rcases List.mem_cons.mp hc with rfl | hc
      · exact ⟨ho.bottom.trans hlo, le_rfl⟩
      · obtain ⟨h₁, h₂⟩ := h.bottom c hc
        exact ⟨h₁, h₂.trans (hlo.trans hstop)⟩
    · refine List.pairwise_cons.mpr ⟨fun c hc => .inr ?_, h.bottomApart⟩
      exact (h.bottom c hc).2.trans hlo
    · cases hc
      exact ⟨halign, ho.bottom.trans hlo, hhi.trans ho.top⟩

/-- **A top allocation keeps the invariant.** -/
theorem Inv.holdTop (h : s.Inv) (layout : Layout) :
    (s.holdTop (s.arena.allocTop layout)).Inv := by
  rcases hr : s.arena.allocTop layout with ⟨e | b, a⟩
  · obtain rfl := Arena.allocTop_error hr
    exact h.sameHeads (.refl _)
  · obtain ⟨-, halign, hlo, hhi, low, rfl⟩ := Arena.allocTop_ok hr
    have hstop : b.offset ≤ b.stop := Nat.le_add_right _ _
    have ho := h.ordered
    refine ⟨⟨ho.bottom, hlo, (hstop.trans hhi).trans ho.top⟩, h.bottom, fun c hc => ?_, h.bottomApart,
      ?_, h.marks, fun c hc => ?_⟩
    · rcases List.mem_cons.mp hc with rfl | hc
      · exact ⟨le_rfl, hhi.trans ho.top⟩
      · obtain ⟨h₁, h₂⟩ := h.top c hc
        exact ⟨(hstop.trans hhi).trans h₁, h₂⟩
    · refine List.pairwise_cons.mpr ⟨fun c hc => .inl ?_, h.topApart⟩
      exact hhi.trans (h.top c hc).1
    · cases hc
      exact ⟨halign, ho.bottom.trans hlo, hhi.trans ho.top⟩

/-- **The resize in place keeps the invariant**: the blocks of the bottom end move with it. -/
theorem Inv.moved (h : s.Inv) (n : ℕ) : (s.next (.resizePersistentCapacity n)).Inv := by
  refine h.reclaim (fun a ha => ?_) fun e a ha => ?_
  · rcases Arena.resizePersistentCapacity_ok ha with ⟨rfl, hn⟩ |
      ⟨-, hcap, hle, hbuf, hpc, hbt, htt, hover, -, -⟩
    · -- Nothing moves when the size stays.
      have hmap : s.bottomBlocks.map (shift s.arena.persistentCapacity n) = s.bottomBlocks := by
        conv_rhs => rw [← List.map_id s.bottomBlocks]
        refine List.map_congr_left fun b _ => ?_
        obtain ⟨offset, layout⟩ := b
        simp [shift, hn]
      rw [hmap]
      exact h.sameHeads (.refl _)
    · have hshift : ∀ b ∈ s.bottomBlocks,
          (shift s.arena.persistentCapacity n b).offset + s.arena.persistentCapacity = b.offset + n ∧
          (shift s.arena.persistentCapacity n b).stop + s.arena.persistentCapacity = b.stop + n := by
        intro b hb
        have := (h.bottom b hb).1
        dsimp only [shift, Block.stop]
        omega
      refine ⟨⟨?_, ?_, ?_⟩, fun c hc => ?_, fun c hc => ?_, ?_, h.topApart, fun m hm => ?_,
        by rintro _ ⟨⟩⟩
      · show a.persistentCapacity ≤ a.bottomTop
        omega
      · show a.bottomTop ≤ a.topTop
        omega
      · show a.topTop ≤ a.buffer.capacity
        rw [htt, hbuf]
        exact h.ordered.top
      · obtain ⟨b, hb, rfl⟩ := List.mem_map.mp hc
        obtain ⟨h₁, h₂⟩ := hshift b hb
        obtain ⟨h₃, h₄⟩ := h.bottom b hb
        show a.persistentCapacity ≤ _ ∧ _ ≤ a.bottomTop
        omega
      · show a.topTop ≤ _ ∧ _ ≤ a.buffer.capacity
        rw [htt, hbuf]
        exact h.top c hc
      · refine List.pairwise_map.mpr (h.bottomApart.imp_of_mem fun {b c} hb hc hbc => ?_)
        obtain ⟨h₁, h₂⟩ := hshift b hb
        obtain ⟨h₃, h₄⟩ := hshift c hc
        rcases hbc with hbc | hbc
        · exact .inl (by omega)
        · exact .inr (by omega)
      · show m ≤ a.buffer.capacity
        rw [hbuf]
        exact h.marks m hm
  · obtain rfl := Arena.resizePersistentCapacity_error ha
    exact .refl _

/-- **A rewind of the bottom end keeps the invariant** when its mark is not below the persistent
region's end. -/
theorem Inv.rewindBottom (h : s.Inv) {mark : ℕ} (hmark : s.arena.persistentCapacity ≤ mark) :
    (s.next (.rewindBottom mark)).Inv := by
  have ho := h.ordered
  refine ⟨⟨le_min hmark ho.bottom, (min_le_right _ _).trans ho.heads, ho.top⟩, fun b hb => ?_, h.top,
    h.bottomApart.filter _, h.topApart, h.marks, by rintro _ ⟨⟩⟩
  obtain ⟨hb, hle⟩ := List.mem_filter.mp hb
  exact ⟨(h.bottom b hb).1, of_decide_eq_true hle⟩

/-- A rewind of the top end keeps the invariant: every mark of that end was a head. -/
theorem Inv.rewindTop (h : s.Inv) {mark : ℕ} (hmark : mark ∈ s.topMarks) :
    (s.next (.rewindTop mark)).Inv := by
  have ho := h.ordered
  refine ⟨⟨ho.bottom, ho.heads.trans (le_max_right _ _), max_le (h.marks mark hmark) ho.top⟩,
    h.bottom, fun b hb => ?_, h.bottomApart, h.topApart.filter _, h.marks,
    by rintro _ ⟨⟩⟩
  obtain ⟨hb, hle⟩ := List.mem_filter.mp hb
  exact ⟨of_decide_eq_true hle, (h.top b hb).2⟩

/-- **One operation keeps the invariant**, but for a rewind of the bottom end to a mark below the
end of the persistent region. -/
theorem Inv.next (h : s.Inv) {op : Operation} (hadm : s.Admits op)
    (hmark : ∀ m, op = .rewindBottom m → s.arena.persistentCapacity ≤ m) : (s.next op).Inv := by
  have ho := h.ordered
  have hclear : s.arena.clearHeads.Ordered := ⟨le_rfl, ho.bottom.trans (ho.heads.trans ho.top), le_rfl⟩
  have hzero : ∀ start len, s.arena.SameHeads (s.arena.zeroRange start len) :=
    fun _ _ => ⟨rfl, rfl, rfl, rfl⟩
  cases op with
  | allocBottom layout => exact h.holdBottom layout
  | allocTop layout => exact h.holdTop layout
  | allocBottomBytes n =>
    rw [Session.next]
    rcases s.arena.allocBottomBytes_cases n with hn | ⟨layout, hn⟩
    · rw [hn]
      exact h.sameHeads (.refl _)
    · rw [hn]
      exact h.holdBottom layout
  | allocTopBytes n =>
    rw [Session.next]
    rcases s.arena.allocTopBytes_cases n with hn | ⟨layout, hn⟩
    · rw [hn]
      exact h.sameHeads (.refl _)
    · rw [hn]
      exact h.holdTop layout
  | reset | resetUnchecked => exact h.advancing (.refl _) rfl hclear
  | resetTopUnchecked =>
    refine h.reclaim (fun a ha => ?_) fun e a ha => ?_
    · obtain ⟨-, rfl⟩ := Arena.advancing_ok ha
      exact ⟨⟨ho.bottom, ho.heads.trans ho.top, le_rfl⟩, h.bottom, List.forall_mem_nil _,
        h.bottomApart, .nil, h.marks, by rintro _ ⟨⟩⟩
    · obtain rfl := Arena.advancing_error ha
      exact .refl _
  | resizePersistent n =>
    show (s.reclaim [] [] (if s.arena.capacity < n then _ else _)).Inv
    split_ifs with hcap
    · exact h.sameHeads (.refl _)
    · exact h.advancing (.refl _) rfl ⟨le_rfl, not_lt.mp hcap, le_rfl⟩
  | resizePersistentCapacity n => exact h.moved n
  | zeroPersistent => exact h.sameHeads ⟨rfl, rfl, rfl, rfl⟩
  | zeroPersistentRange start len =>
    have hsame := s.arena.zeroPersistentRange_sameHeads start len
    refine h.reclaim (fun a ha => ?_) fun e a ha => ?_
    · rw [ha] at hsame
      exact h.sameHeads hsame
    · rwa [ha] at hsame
  | zeroDualHeaded =>
    rw [Session.next]
    rcases s.arena.zeroDualHeaded_cases with hn | ⟨len, hn⟩
    · rw [hn]
      exact h.sameHeads (.refl _)
    · rw [hn]
      exact h.advancing (hzero _ len) rfl ⟨le_rfl, hclear.heads, le_rfl⟩
  | zeroAll => exact h.advancing (hzero 0 _) rfl ⟨le_rfl, hclear.heads, le_rfl⟩
  | bottomMark =>
    exact ⟨ho, h.bottom, h.top, h.bottomApart, h.topApart, h.marks, by rintro _ ⟨⟩⟩
  | topMark =>
    refine ⟨ho, h.bottom, h.top, h.bottomApart, h.topApart, fun m hm => ?_,
      by rintro _ ⟨⟩⟩
    rcases List.mem_cons.mp hm with rfl | hm
    · exact ho.top
    · exact h.marks m hm
  | rewindBottom mark => exact h.rewindBottom (hmark mark rfl)
  | rewindTop mark => exact h.rewindTop hadm
  | resetBottom =>
    exact ⟨⟨le_rfl, ho.bottom.trans ho.heads, ho.top⟩, List.forall_mem_nil _, h.top, .nil,
      h.topApart, h.marks, by rintro _ ⟨⟩⟩
  | resetTop =>
    exact ⟨⟨ho.bottom, ho.heads.trans ho.top, le_rfl⟩, h.bottom, List.forall_mem_nil _,
      h.bottomApart, .nil, h.marks, by rintro _ ⟨⟩⟩
  | forceResetEpoch => exact h.cleared rfl ⟨hclear.bottom, hclear.heads, hclear.top⟩
  | clearPeaks => exact h.sameHeads ⟨rfl, rfl, rfl, rfl⟩

/-! ## Sessions -/

/-- A rewind of the bottom end to a mark below the persistent region breaks the order. -/
theorem rewindBottom_not_ordered {mark : ℕ} (hmark : mark < s.arena.persistentCapacity) :
    ¬(s.next (.rewindBottom mark)).arena.Ordered := by
  intro h
  have h₁ : s.arena.persistentCapacity ≤ min mark s.arena.bottomTop := h.bottom
  have := min_le_left mark s.arena.bottomTop
  omega

/-- **A session is sound in every state exactly when every rewind of its bottom end goes to a mark
at or above the end of the persistent region at that time.** -/
theorem session_sound_iff {buffer : Buffer} {mem : ℕ → UInt8} {ops : List Operation}
    (hadm : (fresh buffer mem).Admissible ops) :
    (∀ p, p <+: ops → ((fresh buffer mem).run p).Sound) ↔
      ∀ p mark, p ++ [.rewindBottom mark] <+: ops →
        ((fresh buffer mem).run p).arena.persistentCapacity ≤ mark := by
  constructor
  · intro h p mark hp
    by_contra hlt
    have hsound := h _ hp
    rw [run_snoc] at hsound
    exact rewindBottom_not_ordered (not_le.mp hlt) hsound.ordered
  · intro h p hp
    refine Inv.sound ?_
    induction p using List.reverseRecOn with
    | nil => exact inv_fresh buffer mem
    | append_singleton p op ih =>
      rw [run_snoc]
      refine (ih ((List.prefix_append p [op]).trans hp)).next (hadm p op hp) fun mark hop => ?_
      exact h p mark (hop ▸ hp)

/-! ## Marks across a resize -/

/-- A buffer of 64 bytes. -/
def smallBuffer : Buffer := ⟨64, 4096, 64, by decide, by decide⟩

def zeroed : ℕ → UInt8 := fun _ => 0

/-- A block that stays, a block behind a mark, and the mark again before the next block. -/
def blocksAroundRewind : List Operation :=
  [.resizePersistent 8, .allocBottomBytes 16, .bottomMark, .allocBottomBytes 4, .allocTopBytes 8,
    .rewindBottom 24, .allocBottomBytes 12]

/-- Two blocks, one below the mark and one behind it, after a rewind between them. -/
theorem blocksAroundRewind_sound :
    ((fresh smallBuffer zeroed).run blocksAroundRewind).Sound ∧
      (((fresh smallBuffer zeroed).run blocksAroundRewind).bottomBlocks.map fun b =>
        (b.offset, b.layout.size)) = [(24, 12), (8, 16)] := by
  refine ⟨(session_sound_iff ?_).mpr (fun p mark hp => ?_) _ (List.prefix_refl _), by
    decide +kernel⟩
  · simp only [blocksAroundRewind, admissible_cons]
    exact ⟨trivial, trivial, trivial, trivial, trivial, by decide +kernel, trivial,
      admissible_nil _⟩
  · simp only [blocksAroundRewind, snoc_prefix_cons, reduceCtorEq, and_false, false_or] at hp
    obtain ⟨_, rfl, _, rfl, _, rfl, _, rfl, _, rfl, ⟨rfl, h⟩ | ⟨_, rfl, _, rfl, h⟩⟩ := hp
    · cases h
      decide +kernel
    · simp at h

/-- A mark, a resize of the persistent region to half of the buffer, and the mark again. -/
def staleMark : List Operation := [.bottomMark, .resizePersistent 32, .rewindBottom 0]

/-- **The replayed mark puts the bottom head into the persistent region.** -/
theorem staleMark_unsound : (fresh smallBuffer zeroed).Admissible staleMark ∧
    ((fresh smallBuffer zeroed).run staleMark).arena.bottomTop = 0 ∧
    ((fresh smallBuffer zeroed).run staleMark).arena.persistentCapacity = 32 ∧
    ¬((fresh smallBuffer zeroed).run staleMark).Sound := by
  refine ⟨?_, rfl, rfl, fun h => ?_⟩
  · exact admissible_cons.mpr ⟨trivial, admissible_cons.mpr ⟨trivial,
      admissible_cons.mpr ⟨List.mem_singleton.mpr rfl, admissible_nil _⟩⟩⟩
  · exact absurd (show 32 ≤ 0 from h.ordered.bottom) (by decide)

end Session

end KeleusmaArena
