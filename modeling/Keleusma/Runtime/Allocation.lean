import Keleusma.Runtime.Codec

/-!
# What an allocation leaves alone

Packing, copying text and compacting allocate at the top end of the arena. They move no bound but
that of the top end, and write only between the two bump regions (`Arena.Allocated`): the
persistent region, the stacks, what is in use at the top end and whatever lies outside the arena
keep their bytes.
-/

namespace Keleusma

/-- The arena `a'` is `a` after allocations at the top end. -/
structure Arena.Allocated (a a' : Arena) : Prop where
  base : a'.base = a.base
  capacity : a'.capacity = a.capacity
  persistentCapacity : a'.persistentCapacity = a.persistentCapacity
  bottomTop : a'.bottomTop = a.bottomTop
  epoch : a'.epoch = a.epoch
  topTop : a'.topTop ≤ a.topTop
  mem : ∀ addr, ¬(a.base + a.bottomTop ≤ addr ∧ addr < a.base + a.topTop) →
    a'.mem addr = a.mem addr

namespace Arena.Allocated

variable {a b c : Arena}

theorem refl (a : Arena) : a.Allocated a := ⟨rfl, rfl, rfl, rfl, rfl, le_refl _, fun _ _ => rfl⟩

theorem trans (h : a.Allocated b) (h' : b.Allocated c) : a.Allocated c where
  base := h'.base.trans h.base
  capacity := h'.capacity.trans h.capacity
  persistentCapacity := h'.persistentCapacity.trans h.persistentCapacity
  bottomTop := h'.bottomTop.trans h.bottomTop
  epoch := h'.epoch.trans h.epoch
  topTop := h'.topTop.trans h.topTop
  mem addr haddr := by
    have htop := h.topTop
    rw [h'.mem addr (by rw [h.base, h.bottomTop]; omega), h.mem addr haddr]

/-- An allocation at the top end lies above the bottom region. -/
theorem allocTop {n : ℕ} (h : a.allocTop n = some b) :
    a.Allocated b ∧ a.bottomTop ≤ b.topTop := by
  unfold Arena.allocTop at h
  split at h
  next hn =>
    cases h
    exact ⟨⟨rfl, rfl, rfl, rfl, rfl, Nat.sub_le _ _, fun _ _ => rfl⟩, hn.2⟩
  · cases h

/-- An allocation at the top end is written, wholly inside of what was free. -/
theorem allocTop_write {n : ℕ} (h : a.allocTop n = some b) {bytes : List UInt8}
    (hlength : bytes.length ≤ n) : a.Allocated (b.write (b.base + b.topTop) bytes) := by
  obtain ⟨hab, hbottom⟩ := allocTop h
  have htop := allocTop_topTop h
  refine ⟨hab.base, hab.capacity, hab.persistentCapacity, hab.bottomTop, hab.epoch, hab.topTop,
    fun addr haddr => ?_⟩
  have hmem : b.mem addr = a.mem addr := hab.mem addr haddr
  show (if b.base + b.topTop ≤ addr then bytes.getD (addr - (b.base + b.topTop)) (b.mem addr)
    else b.mem addr) = _
  split
  next hle =>
    rw [hab.base] at hle ⊢
    rw [List.getD_eq_getElem?_getD, List.getElem?_eq_none (by omega), Option.getD_none, hmem]
  · exact hmem

end Arena.Allocated

/-- The computation allocates at the top end and changes nothing else. -/
def Allocates {α : Type} (m : ArenaM α) : Prop := ∀ ⦃a x a'⦄, m a = some (x, a') → a.Allocated a'

namespace Allocates

variable {F α β : Type} {fo : FloatOps F} {w : Widths}

theorem pure (x : α) : Allocates (pure x) := by
  intro a x a' h
  cases h
  exact .refl a

theorem bind {m : ArenaM α} {k : α → ArenaM β} (hm : Allocates m) (hk : ∀ x, Allocates (k x)) :
    Allocates (m >>= k) := by
  intro a y a' h
  obtain ⟨⟨x, a₁⟩, hx, hy⟩ := Option.bind_eq_some_iff.1 h
  exact (hm hx).trans (hk x hy)

theorem allocText (s : String) : Allocates (allocText s) := by
  intro a x a' h
  obtain ⟨b, hb, h⟩ := Option.bind_eq_some_iff.1 h
  cases h
  exact Arena.Allocated.allocTop_write hb (le_refl _)

/-- A copied body. -/
theorem build (bytes : List UInt8) : Allocates (fun a => a.build bytes) := by
  intro a x a' h
  unfold Arena.build at h
  split at h
  · cases h
    exact .refl a
  · obtain ⟨b, hb, h⟩ := Option.bind_eq_some_iff.1 h
    cases h
    exact Arena.Allocated.allocTop_write hb (le_refl _)

/-- A packed body is written with its padding. -/
theorem packM (values : List (Value F)) (minBytes : ℕ) :
    Allocates (packM fo w values minBytes) := by
  intro a x a' h
  unfold Keleusma.packM packFlatInArena at h
  split at h
  · cases h
    exact .refl a
  next sizes hsizes =>
    simp only at h
    split_ifs at h
    · cases h
      exact .refl a
    · cases h
      exact .refl a
    · split at h
      · cases h
      next b hb =>
        split at h
        · cases h
          exact (Arena.Allocated.allocTop hb).1
        next fields hfields =>
          cases h
          refine Arena.Allocated.allocTop_write hb ?_
          have hlength := flatFields_length hsizes hfields
          rw [List.length_append, List.length_replicate]
          omega

/-- What is allocated after a mark may be given up for a body that starts at the mark again. -/
theorem compactAfter {a₀ a : Arena} (h₀ : a₀.Allocated a) {usedAtMark : ℕ} {kind : CompositeKind}
    {body : Handle} {x : Value F} {a' : Arena}
    (h : compactAfter a₀.topTop usedAtMark kind body a = some (x, a')) : a₀.Allocated a' := by
  unfold Keleusma.compactAfter at h
  split at h
  · cases h
    exact h₀
  · obtain ⟨bytes, hbytes, h⟩ := Option.bind_eq_some_iff.1 h
    obtain ⟨b, hb, h⟩ := Option.bind_eq_some_iff.1 h
    cases h
    have hmark : a₀.Allocated { a with topTop := a₀.topTop } :=
      ⟨h₀.base, h₀.capacity, h₀.persistentCapacity, h₀.bottomTop, h₀.epoch, le_refl _, h₀.mem⟩
    exact hmark.trans (Arena.Allocated.allocTop_write hb (Arena.resolve_length hbytes).le)

/-- **A packed composite allocates, children first.** The scratch space of its children lies
behind the mark it is compacted to. -/
theorem packed {m : ArenaM α} (hm : Allocates m) {pack : α → ArenaM (Option Handle)}
    (hpack : ∀ x, Allocates (pack x)) (kind : CompositeKind) (boxed : α → Value F) :
    Allocates (do
      let a ← StateT.get
      let x ← m
      finishCanonical a.topTop a.topUsed kind (← pack x) (boxed x)) := by
  intro a y a' h
  obtain ⟨⟨x, a₁⟩, hx, h⟩ := Option.bind_eq_some_iff.1 h
  obtain ⟨⟨body, a₂⟩, hbody, h⟩ := Option.bind_eq_some_iff.1 h
  have hscratch := (hm hx).trans (hpack x hbody)
  cases body with
  | none =>
    cases h
    exact hscratch
  | some body => exact compactAfter hscratch h

/-! ## Canonical values -/

section

variable {leaf : Value F → ArenaM (Value F)} {hints : String → String → Int × ℕ → Int × ℕ}

mutual

theorem traverse (hleaf : ∀ v, Allocates (leaf v)) : ∀ v : Value F,
    Allocates (v.traverse leaf hints)
  | .tuple es => (traverseList hleaf es).bind fun _ => .pure _
  | .array es => (traverseList hleaf es).bind fun _ => .pure _
  | .struct _ fs => (traverseFields hleaf fs).bind fun _ => .pure _
  | .enum _ _ _ _ fs => (traverseList hleaf fs).bind fun _ => .pure _
  | .unit | .bool _ | .int _ | .byte _ | .fixed _ | .float _ | .staticStr _ | .kstr _ | .flat _ _
  | .none | .hostObject _ | .opaqueRef _ => hleaf _

theorem traverseList (hleaf : ∀ v, Allocates (leaf v)) : ∀ vs : List (Value F),
    Allocates (Value.traverseList leaf hints vs)
  | [] => .pure _
  | v :: vs => (traverse hleaf v).bind fun _ => (traverseList hleaf vs).bind fun _ => .pure _

theorem traverseFields (hleaf : ∀ v, Allocates (leaf v)) : ∀ fs : List (String × Value F),
    Allocates (Value.traverseFields leaf hints fs)
  | [] => .pure _
  | (_, v) :: fs => (traverse hleaf v).bind fun _ => (traverseFields hleaf fs).bind fun _ => .pure _

end

end

theorem promoteCompositeText (v : Value F) : Allocates (promoteCompositeText w v) := by
  refine traverse (fun v => ?_) v
  cases v with
  | staticStr s =>
    simp only
    split
    · exact (allocText s).bind fun _ => .pure _
    · exact .pure _
  | _ => exact .pure _

mutual

theorem packCanonicalNode : ∀ v : Value F, Allocates (packCanonicalNode fo w v)
  | .tuple es => packed (packCanonicalList es) (fun _ => packM _ _) _ _
  | .array es => packed (packCanonicalList es) (fun _ => packM _ _) _ _
  | .struct _ fs => packed (packCanonicalFields fs) (fun _ => packM _ _) _ _
  | .enum _ _ _ _ fs => packed (packCanonicalList fs) (fun _ => packM _ _) _ _
  | .unit | .bool _ | .int _ | .byte _ | .fixed _ | .float _ | .staticStr _ | .kstr _ | .flat _ _
  | .none | .hostObject _ | .opaqueRef _ => .pure _

theorem packCanonicalList : ∀ vs : List (Value F), Allocates (packCanonicalList fo w vs)
  | [] => .pure _
  | v :: vs => (packCanonicalNode v).bind fun _ => (packCanonicalList vs).bind fun _ => .pure _

theorem packCanonicalFields : ∀ fs : List (String × Value F),
    Allocates (packCanonicalFields fo w fs)
  | [] => .pure _
  | (_, v) :: fs =>
    (packCanonicalNode v).bind fun _ => (packCanonicalFields fs).bind fun _ => .pure _

end

/-- **Making a host's value canonical only allocates.** -/
theorem intoArenaCanonical (v : Value F) : Allocates (intoArenaCanonical fo w v) := by
  unfold Keleusma.intoArenaCanonical
  split
  · exact (promoteCompositeText v).bind packCanonicalNode
  · exact .pure v

end Allocates

end Keleusma
