import Keleusma.Store.Access

/-!
# Bodies of composites

A body is safe from every store of private data when it lies outside of the arena or in the part of
the reclaimable region that is in use (`Arena.Secure`). What only allocates, resets and stores
private data (`Arena.Tame`) keeps its bytes, and so does every view of it.
-/

namespace Keleusma

/-! ## Changes of the arena -/

/-- The arena keeps its bounds and the bytes outside of it. Within an epoch it keeps the bytes in
use at the top end too. -/
structure Arena.Tame (a a' : Arena) : Prop where
  base : a'.base = a.base
  capacity : a'.capacity = a.capacity
  persistentCapacity : a'.persistentCapacity = a.persistentCapacity
  ordered : a.Ordered → a'.Ordered
  epoch : a.epoch ≤ a'.epoch
  outside : a.Ordered → ∀ addr, addr < a.base ∨ a.base + a.capacity ≤ addr →
    a'.mem addr = a.mem addr
  topTop : a'.epoch = a.epoch → a'.topTop ≤ a.topTop
  used : a.Ordered → a'.epoch = a.epoch → ∀ addr, a.addrIsEphemeral addr = true →
    a.base + a.topTop ≤ addr → a'.mem addr = a.mem addr

section

variable {a a' : Arena} {h v : Handle} {bytes : List UInt8}

theorem Arena.Tame.addrIsEphemeral (htame : a.Tame a') (addr : ℕ) :
    a'.addrIsEphemeral addr = a.addrIsEphemeral addr := by
  simp only [Arena.addrIsEphemeral, htame.base, htame.capacity, htame.persistentCapacity]

theorem Arena.Calm.tame (hcalm : a.Calm a') : a.Tame a' where
  base := hcalm.base
  capacity := hcalm.capacity
  persistentCapacity := hcalm.persistentCapacity
  ordered := hcalm.ordered
  epoch := hcalm.epoch
  outside ho addr haddr := by
    have hle := ho.persistent
    apply hcalm.fixed ho
    rw [Arena.addrIsEphemeral_eq_false]
    omega
  topTop := hcalm.topTop
  used ho hepoch addr _ haddr := hcalm.used ho hepoch addr haddr

/-! ## Views -/

/-- Part of what is read is what is read of that part. -/
theorem Arena.read_slice {addr len off n : ℕ} (hfits : off + n ≤ len) :
    a.read (addr + off) n = ((a.read addr len).drop off).take n := by
  apply List.ext_getElem
  · simp only [Arena.read_length, List.length_take, List.length_drop]
    omega
  · intro i h₁ h₂
    simp [Arena.read, Nat.add_assoc]

/-- A view of a live body is the empty body, or part of it. -/
theorem Arena.nestedView_some {off n : ℕ} (hview : a.nestedView h off n = some v) :
    a.addrIsLive h.addr h.epoch = true ∧ off + n ≤ h.len ∧
      (n = 0 ∧ v = Arena.emptyHandle ∨ n ≠ 0 ∧ v = ⟨h.addr + off, n, h.epoch⟩) := by
  unfold Arena.nestedView at hview
  split_ifs at hview with hlive hlen hn
  · cases hview
    exact ⟨hlive, not_lt.1 hlen, .inl ⟨hn, rfl⟩⟩
  · cases hview
    exact ⟨hlive, not_lt.1 hlen, .inr ⟨hn, rfl⟩⟩

theorem Arena.resolve_eq_some : a.resolve h = some bytes ↔
    a.addrIsLive h.addr h.epoch = true ∧ a.read h.addr h.len = bytes := by
  unfold Arena.resolve
  split
  next hlive => simp [hlive]
  next hdead => simp [hdead]

/-! ## Bodies that no store reaches -/

/-- Bytes of the reclaimable region: their epoch is over, or they are in use. -/
structure Arena.InUse (a : Arena) (h : Handle) : Prop where
  low : a.base + a.persistentCapacity ≤ h.addr
  high : h.addr + h.len ≤ a.base + a.capacity
  pos : 0 < h.len
  held : h.epoch < a.epoch ∨ h.epoch = a.epoch ∧ a.base + a.topTop ≤ h.addr

/-- The bytes that a value had when it was read, and the epoch of that. -/
structure Mark where
  bytes : List UInt8
  epoch : ℕ
  deriving DecidableEq, Repr

/-- The part of a marked value that a view is of. -/
def Mark.view (m : Mark) (off n : ℕ) : Mark := ⟨(m.bytes.drop off).take n, m.epoch⟩

/-- An instruction sees the marked bytes, or it is refused a body that a reset has reclaimed. -/
def Arena.Sees (a : Arena) (h : Handle) (m : Mark) : Prop :=
  a.resolve h = some m.bytes ∨ m.epoch < a.epoch ∧ a.resolve h = none

/-- The bytes of a marked body are safe from every store. -/
inductive Arena.Secure (a : Arena) (h : Handle) (m : Mark) : Prop
  | outside (hout : a.Outside h) (hbytes : a.resolve h = some m.bytes)
  | used (huse : a.InUse h) (hepoch : h.epoch = m.epoch)
      (hbytes : h.epoch = a.epoch → a.resolve h = some m.bytes)

variable {m : Mark}

theorem Arena.InUse.ephemeral (huse : a.InUse h) {p : ℕ} (hle : h.addr ≤ p)
    (hlt : p < h.addr + h.len) : a.addrIsEphemeral p = true := by
  have hlow := huse.low
  have hhigh := huse.high
  simp only [Arena.addrIsEphemeral, Bool.and_eq_true, decide_eq_true_eq]
  omega

theorem Arena.Secure.sees (hsecure : a.Secure h m) : a.Sees h m := by
  cases hsecure with
  | outside hout hbytes => exact .inl hbytes
  | used huse hepoch hbytes =>
    rcases huse.held with hover | ⟨hnow, -⟩
    · refine .inr ⟨by omega, ?_⟩
      have hpos := huse.pos
      have heph := huse.ephemeral (le_refl _) (by omega)
      have hne : (h.epoch == a.epoch) = false := by simp; omega
      simp [Arena.resolve, Arena.addrIsLive, heph, hne]
    · exact .inl (hbytes hnow)

/-- **Secure bytes stay**, whatever runs elsewhere. -/
theorem Arena.Secure.tame (ho : a.Ordered) (htame : a.Tame a') (hsecure : a.Secure h m) :
    a'.Secure h m := by
  cases hsecure with
  | outside hout hbytes =>
    have hout' : a'.Outside h := by
      refine ⟨by rw [htame.addrIsEphemeral]; exact hout.1, ?_⟩
      rw [htame.base, htame.capacity]
      exact hout.2
    refine .outside hout' ?_
    rw [← hbytes]
    apply Arena.resolve_congr
    · rw [Arena.addrIsLive_fixed hout.1, Arena.addrIsLive_fixed hout'.1]
    · intro p hle hlt
      exact htame.outside ho p (hout.2 p hle hlt)
  | used huse hepoch hbytes =>
    have hle := htame.epoch
    have hlow := huse.low
    have hhigh := huse.high
    have huse' : a'.InUse h := by
      refine ⟨by rw [htame.base, htame.persistentCapacity]; exact hlow, ?_, huse.pos, ?_⟩
      · rw [htame.base, htame.capacity]
        exact hhigh
      · rcases huse.held with hover | ⟨hnow, hused⟩
        · exact .inl (by omega)
        · by_cases hsame : a'.epoch = a.epoch
          · have htop := htame.topTop hsame
            exact .inr ⟨by omega, by rw [htame.base]; omega⟩
          · exact .inl (by omega)
    refine .used huse' hepoch ?_
    intro hnow'
    rcases huse.held with hover | ⟨hnow, hused⟩
    · omega
    · rw [← hbytes hnow]
      apply Arena.resolve_congr
      · unfold Arena.addrIsLive
        rw [htame.addrIsEphemeral, ← hnow', hnow]
      · intro p hlep hltp
        exact htame.used ho (by omega) p (huse.ephemeral hlep hltp) (by omega)

/-- The address that an empty body has lies in front of the arena. -/
def Arena.Grounded (a : Arena) : Prop := 1 < a.base

theorem Arena.secure_empty (hground : a.Grounded) (epoch : ℕ) :
    a.Secure Arena.emptyHandle ⟨[], epoch⟩ := by
  unfold Arena.Grounded at hground
  have hfixed : a.addrIsEphemeral 1 = false := by
    rw [Arena.addrIsEphemeral_eq_false]
    omega
  refine .outside ⟨hfixed, ?_⟩ ?_
  · intro p hle hlt
    simp only [Arena.emptyHandle] at hle hlt
    omega
  · rw [Arena.resolve_fixed hfixed]
    simp [Arena.emptyHandle, Arena.read]

/-- **A view of a secure body is secure.** -/
theorem Arena.Secure.view {off n : ℕ} (hground : a.Grounded) (hsecure : a.Secure h m)
    (hview : a.nestedView h off n = some v) : a.Secure v (m.view off n) := by
  obtain ⟨hlive, hfits, ⟨rfl, rfl⟩ | ⟨hn, rfl⟩⟩ := Arena.nestedView_some hview
  · simp only [Mark.view, List.take_zero]
    exact Arena.secure_empty hground _
  · cases hsecure with
    | outside hout hbytes =>
      have hpart : a.Outside ⟨h.addr + off, n, h.epoch⟩ := by
        refine ⟨?_, ?_⟩
        · have hp := hout.2 (h.addr + off) (by omega) (by omega)
          have hcap := Arena.addrIsEphemeral_eq_false.1 hout.1
          rw [Arena.addrIsEphemeral_eq_false]
          dsimp only
          omega
        · intro p hle hlt
          exact hout.2 p (by simp only at hle; omega) (by simp only at hlt; omega)
      refine .outside hpart ?_
      rw [Arena.resolve_fixed hpart.1, Arena.read_slice hfits,
        (Arena.resolve_eq_some.1 hbytes).2, Mark.view]
    | used huse hepoch hbytes =>
      have hlow := huse.low
      have hhigh := huse.high
      have hpos := huse.pos
      have hnow : h.epoch = a.epoch := by
        unfold Arena.addrIsLive at hlive
        rw [huse.ephemeral (le_refl _) (by omega)] at hlive
        simpa using hlive
      have hpart : a.InUse ⟨h.addr + off, n, h.epoch⟩ := by
        refine ⟨by dsimp only; omega, by dsimp only; omega, Nat.pos_of_ne_zero hn, ?_⟩
        rcases huse.held with hover | ⟨-, hused⟩
        · omega
        · exact .inr ⟨hnow, by dsimp only; omega⟩
      refine .used hpart hepoch ?_
      intro _
      have hread := (Arena.resolve_eq_some.1 (hbytes hnow)).2
      rw [Arena.resolve_eq_some, Arena.read_slice hfits, hread]
      refine ⟨?_, rfl⟩
      unfold Arena.addrIsLive
      simp [hnow]

end

end Keleusma
