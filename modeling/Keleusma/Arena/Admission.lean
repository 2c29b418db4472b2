import Keleusma.Arena.Handles

/-!
# Admission of budgets

A budget bounds what is allocated from either end between two resets. `fitsBudget` compares it with
the capacity of the arena, of which the persistent region is a part, while the allocations share the
dual-headed region. So every sequence of allocations within the budget succeeds exactly if the budget
fits the dual-headed region (`admitted_served_iff`).
-/

namespace KeleusmaArena

open Overflow

/-- What is allocated from either end at most. -/
structure Budget where
  bottomBytes : ℕ
  topBytes : ℕ

/-- The total, saturating at the largest `usize`. -/
def Budget.total (usizeBits : ℕ) (b : Budget) : ℕ :=
  Saturating.add (2 ^ usizeBits - 1) b.bottomBytes b.topBytes

/-- A request for bytes from one of the ends. -/
inductive Request
  | bottom (n : ℕ) | top (n : ℕ)

/-- What the request takes from the bottom end. -/
def Request.bottomBytes : Request → ℕ
  | .bottom n => n
  | .top _ => 0

/-- What the request takes from the top end. -/
def Request.topBytes : Request → ℕ
  | .bottom _ => 0
  | .top n => n

namespace Arena

/-- Whether the budget fits the capacity. -/
def fitsBudget (a : Arena) (b : Budget) : Bool :=
  decide (b.total a.buffer.usizeBits ≤ a.capacity)

/-- Serve one request. -/
def request (a : Arena) : Request → Reply Block
  | .bottom n => a.allocBottomBytes n
  | .top n => a.allocTopBytes n

/-- Serve requests one after the other, until one is refused. -/
def serve (a : Arena) : List Request → Option Arena
  | [] => some a
  | r :: rs =>
    match a.request r with
    | (.error _, _) => none
    | (.ok _, a') => a'.serve rs

/-- Every sequence of requests within the budget is served. -/
def Serves (a : Arena) (b : Budget) : Prop :=
  ∀ rs : List Request, (rs.map Request.bottomBytes).sum ≤ b.bottomBytes →
    (rs.map Request.topBytes).sum ≤ b.topBytes → (a.serve rs).isSome

variable {a : Arena}

/-! ## Single requests -/

theorem byteLayout_eq {n : ℕ} (hn : n ≤ a.capacity) : a.byteLayout n = some ⟨n, 1, 0, rfl⟩ := by
  have hcap := a.buffer.capacity_lt
  unfold capacity at hn
  exact if_pos (by omega)

theorem ldiff_zero (x : ℕ) : Nat.ldiff x 0 = x := by
  have h := ldiff_mask x 0
  simpa using h

/-- A request of the bottom end is served if the bytes lie below the top head. -/
theorem allocBottomBytes_fits (htop : a.topTop ≤ a.capacity) {n : ℕ}
    (hfits : a.bottomTop + n ≤ a.topTop) : ∃ block peak, a.allocBottomBytes n =
      (.ok block, { a with bottomTop := a.bottomTop + n, bottomPeak := peak }) := by
  have hend := a.buffer.end_lt
  have hlayout := byteLayout_eq (show n ≤ a.capacity by omega)
  unfold capacity at htop
  have hcur : checkedAdd a.buffer.usizeBits a.buffer.base a.bottomTop =
      some (a.buffer.base + a.bottomTop) := if_pos (by omega)
  have hmask : checkedAdd a.buffer.usizeBits (a.buffer.base + a.bottomTop) 0 =
      some (a.buffer.base + a.bottomTop) := if_pos (by omega)
  have hstop : checkedAdd a.buffer.usizeBits a.bottomTop n = some (a.bottomTop + n) :=
    if_pos (by omega)
  rw [allocBottomBytes, hlayout]
  simp only [allocBottom, hcur, Option.bind_eq_bind, Option.bind_some, Nat.sub_self, hmask,
    ldiff_zero, Nat.add_sub_cancel_left, hstop, Option.pure_def]
  rw [if_neg (not_lt.mpr hfits)]
  exact ⟨_, _, rfl⟩

/-- A request of the top end is served if the bytes lie above the bottom head. -/
theorem allocTopBytes_fits (htop : a.topTop ≤ a.capacity) {n : ℕ}
    (hfits : a.bottomTop + n ≤ a.topTop) : ∃ block low, a.allocTopBytes n =
      (.ok block, { a with topTop := a.topTop - n, topPeakLow := low }) := by
  have hend := a.buffer.end_lt
  have hlayout := byteLayout_eq (show n ≤ a.capacity by omega)
  unfold capacity at htop
  have hsub : checkedSub a.topTop n = some (a.topTop - n) := if_pos (by omega)
  have hstart : checkedAdd a.buffer.usizeBits a.buffer.base (a.topTop - n) =
      some (a.buffer.base + (a.topTop - n)) := if_pos (by omega)
  rw [allocTopBytes, hlayout]
  simp only [allocTop, hsub, Option.bind_eq_bind, Option.bind_some, Nat.sub_self, hstart,
    ldiff_zero, Nat.add_sub_cancel_left]
  rw [if_neg (by omega), if_neg (by omega)]
  exact ⟨_, _, rfl⟩

/-- A served request of the bottom end. -/
theorem allocBottomBytes_ok {a' : Arena} {n : ℕ} {block : Block}
    (h : a.allocBottomBytes n = (.ok block, a')) :
    a.bottomTop + n ≤ a'.bottomTop ∧ a'.topTop = a.topTop := by
  unfold allocBottomBytes byteLayout at h
  split_ifs at h
  · obtain ⟨hlayout, -, hlow, -, peak, rfl⟩ := allocBottom_ok h
    have hsize : block.layout.size = n := congrArg Layout.size hlayout
    refine ⟨?_, rfl⟩
    show a.bottomTop + n ≤ block.offset + block.layout.size
    omega
  · cases h

/-- A served request of the top end. -/
theorem allocTopBytes_ok {a' : Arena} {n : ℕ} {block : Block}
    (h : a.allocTopBytes n = (.ok block, a')) : a.bottomTop + n ≤ a.topTop := by
  unfold allocTopBytes byteLayout at h
  split_ifs at h
  · obtain ⟨hlayout, -, hlow, hhigh, -⟩ := allocTop_ok h
    have hsize : block.layout.size = n := congrArg Layout.size hlayout
    unfold Block.stop at hhigh
    omega
  · cases h

/-! ## Sequences of requests -/

/-- **Requests that fit between the heads are served**, in whatever order the ends take turns. -/
theorem serve_fits {rs : List Request} (htop : a.topTop ≤ a.capacity)
    (hfits : a.bottomTop + (rs.map Request.bottomBytes).sum + (rs.map Request.topBytes).sum ≤
      a.topTop) : (a.serve rs).isSome := by
  induction rs generalizing a with
  | nil => rfl
  | cons r rs ih =>
    rw [List.map_cons, List.map_cons, List.sum_cons, List.sum_cons] at hfits
    cases r with
    | bottom n =>
      simp only [Request.bottomBytes, Request.topBytes] at hfits
      obtain ⟨block, peak, halloc⟩ := allocBottomBytes_fits htop (show a.bottomTop + n ≤ _ by omega)
      simp only [serve, request, halloc]
      apply ih
      · exact htop
      · dsimp only
        omega
    | top n =>
      simp only [Request.bottomBytes, Request.topBytes] at hfits
      obtain ⟨block, low, halloc⟩ := allocTopBytes_fits htop (show a.bottomTop + n ≤ _ by omega)
      simp only [serve, request, halloc]
      apply ih
      · show a.topTop - n ≤ a.capacity
        omega
      · dsimp only
        omega

/-- The whole budget, first at the bottom end and then at the top end. -/
theorem serve_both {b t : ℕ} (h : (a.serve [.bottom b, .top t]).isSome) :
    a.bottomTop + b + t ≤ a.topTop := by
  simp only [serve, request] at h
  split at h
  · cases h
  next block a' halloc =>
    obtain ⟨hbottom, htop⟩ := allocBottomBytes_ok halloc
    split at h
    · cases h
    next block' a'' halloc' =>
      have hfits := allocTopBytes_ok halloc'
      omega

/-- With the heads at its ends, the dual-headed region serves the budgets that fit it. -/
theorem serves_iff (hpersistent : a.persistentCapacity ≤ a.capacity)
    (hbottom : a.bottomTop = a.persistentCapacity) (htop : a.topTop = a.capacity) (b : Budget) :
    a.Serves b ↔ b.bottomBytes + b.topBytes ≤ a.dualHeadedCapacity := by
  unfold dualHeadedCapacity
  constructor
  · intro h
    have hfits :=
      serve_both (h [.bottom b.bottomBytes, .top b.topBytes] (by simp [Request.bottomBytes])
      (by simp [Request.topBytes]))
    omega
  · intro hfits rs hrs hrs'
    exact serve_fits htop.le (by omega)

end Arena

/-! ## After a reset -/

/-- **A budget that was admitted is served** exactly if it fits the dual-headed region: for every
session and the reset that ends it. -/
theorem admitted_served_iff {buffer : Buffer} {mem : ℕ → UInt8} {ops : List Operation} {a : Arena}
    (hadm : (Session.fresh buffer mem).Admissible ops)
    (hreset : ((Session.fresh buffer mem).run ops).arena.reset = (.ok (), a)) (b : Budget) :
    (a.fitsBudget b = true → a.Serves b) ↔
      (a.fitsBudget b = true → b.bottomBytes + b.topBytes ≤ a.dualHeadedCapacity) := by
  have hbounds := Session.bounds_run hadm (List.prefix_refl ops)
  obtain ⟨-, ha⟩ := Arena.advancing_ok hreset
  have hpersistent : a.persistentCapacity ≤ a.capacity := by
    have hcap := congrArg Buffer.capacity hbounds.buffer_eq
    rw [ha]
    exact hbounds.persistent.trans hcap.ge
  exact imp_congr_right fun _ => Arena.serves_iff hpersistent (by rw [ha]; rfl) (by rw [ha]; rfl) b

/-- A session that made half of the buffer persistent. -/
def halfPersistent : Session :=
  (Session.fresh Session.smallBuffer Session.zeroed).run [.resizePersistent 32]

theorem halfPersistent_admissible :
    (Session.fresh Session.smallBuffer Session.zeroed).Admissible [.resizePersistent 32] :=
  Session.admissible_cons.mpr ⟨trivial, Session.admissible_nil _⟩

/-- A budget that the other half of the buffer holds. -/
theorem halfBudget_served : halfPersistent.arena.reset.2.Serves ⟨16, 16⟩ :=
  (admitted_served_iff halfPersistent_admissible rfl ⟨16, 16⟩).mpr (fun _ => by decide) (by decide)

/-- **The whole buffer as a budget** is admitted, and a request within it is refused. -/
theorem wholeBudget_refused : ¬(halfPersistent.arena.reset.2.fitsBudget ⟨64, 0⟩ = true →
    halfPersistent.arena.reset.2.Serves ⟨64, 0⟩) := by
  intro h
  have hserved := h (by decide) [.bottom 64, .top 0] (by decide) (by decide)
  exact absurd (Arena.serve_both hserved) (by decide)

end KeleusmaArena
