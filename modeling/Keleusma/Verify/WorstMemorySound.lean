import Keleusma.Verify.Balance
import Keleusma.Verify.WorstMemory

/-!
# The bound on the operand stack covers every path

The walk over a region of a balanced chunk returns a peak that no path through the region exceeds
(`Balanced.spans`), as long as every loop is left with no more operands than it is entered with.
The walk itself takes no notice of the height at a break.
-/

namespace Keleusma

open Saturating (u32Max)

/-- Control leaves no loop with more operands than it enters it with. -/
def LoopsNeutral (ops : List Op) : Prop :=
  ∀ l t h h', ops[l]? = some (.loop t) → FlowReaches ops heightEff 0 l h →
    FlowReaches ops heightEff 0 t h' → h' ≤ h

/-- An instruction finds its operands, and with what it puts above them, the frames that it enters
included, it stays below a height. -/
structure Fits (slots : ℕ → ℤ) (top : ℤ) (op : Op) (h : ℕ) : Prop where
  requires : opRequires op ≤ h
  growth : (h : ℤ) + op.stackGrowth ≤ top
  call : ∀ callee n, op = .call callee n → (h : ℤ) - n + slots callee ≤ top

variable {chunk : Chunk} {r : CallResolver} {vsb fuel lo m hi nest heap : ℕ} {s s' : McuState}
  {breaks : List McuResult} {op : Op} {o : McuOutcome × List McuResult} {x e : Option ℕ} {h : ℕ}
  {bs : List ℕ} {walk : McuWalk}

/-! ## One instruction -/

theorem i32_ok {a b : ℤ} (h : i32 a = .ok b) : b = a := by
  unfold i32 at h
  split at h
  · exact (Except.ok.inj h).symm
  · cases h

theorem u32_ok {a b : ℕ} (h : u32 a = .ok b) : b = a := by
  unfold u32 at h
  split at h
  · exact (Except.ok.inj h).symm
  · cases h

/-- The slots of a chunk that was analysed before. -/
def CallResolver.slots (r : CallResolver) (vsb callee : ℕ) : ℤ :=
  asI32 ((r.resolveChunk callee).1 / vsb)

theorem calleeSlots_ok {bytes : ℕ} {a : ℤ} (h : calleeSlots vsb bytes = .ok a) :
    a = asI32 (bytes / vsb) := by
  unfold calleeSlots at h
  split at h
  · cases h
  · exact (Except.ok.inj h).symm

/-- The walk has taken account of an instruction. -/
structure Charged (slots : ℕ → ℤ) (op : Op) (s s' : McuState) : Prop where
  offset : s'.offset = s.offset + (opProduces op - opRequires op)
  peak : s.peak ≤ s'.peak
  growth : s.offset + op.stackGrowth ≤ s'.peak
  call : ∀ callee n, op = .call callee n → s.offset - n + slots callee ≤ s'.peak
  cap : ∀ M : ℕ, (∀ callee n, op = .call callee n → slots callee ≤ M) →
    s'.peak ≤ max s.peak (s.offset.toNat + op.stackGrowth + M)

theorem opNet_eq (op : Op) :
    (op.stackGrowth : ℤ) - op.stackShrink = opProduces op - opRequires op := by
  rw [stackGrowth_sub_stackShrink, opDepthEffect_eq]

theorem account_ok {slots : ℕ → ℤ} (hcall : ∀ callee n, op ≠ .call callee n)
    (h : s.account op heap = .ok s') : Charged slots op s s' := by
  obtain ⟨during, hduring, h⟩ := bind_eq_ok h
  obtain ⟨offset, hoffset, h⟩ := bind_eq_ok h
  obtain rfl := i32_ok hduring
  obtain rfl := i32_ok hoffset
  cases h
  refine ⟨by rw [opNet_eq], le_max_left _ _, ?_, fun callee n heq => absurd heq (hcall callee n),
    fun M _ => ?_⟩
  · show s.offset + op.stackGrowth ≤ ((max s.peak (s.offset + op.stackGrowth).toNat : ℕ) : ℤ)
    omega
  · show max s.peak (s.offset + op.stackGrowth).toNat ≤ _
    omega

theorem call_ok {a : ℤ} {callee n : ℕ} (hslots : r.slots vsb callee = a)
    (h : s.call a n heap = .ok s') : Charged (r.slots vsb) (.call callee n) s s' := by
  obtain ⟨raised, hraised, h⟩ := bind_eq_ok h
  obtain ⟨during, hduring, h⟩ := bind_eq_ok h
  obtain ⟨result, hresult, h⟩ := bind_eq_ok h
  obtain ⟨offset, hoffset, h⟩ := bind_eq_ok h
  obtain rfl := i32_ok hraised
  obtain rfl := i32_ok hduring
  obtain rfl := i32_ok hresult
  obtain rfl := i32_ok hoffset
  cases h
  have hmax := Int.self_le_toNat (max (s.offset + a - n) (s.offset + 1))
  refine ⟨by simp, le_max_left _ _, ?_, ?_, fun M hM => ?_⟩
  · show s.offset + 1 ≤ _
    push_cast
    omega
  · rintro _ _ ⟨⟩
    push_cast
    omega
  · have hle := hM callee n rfl
    have hgrowth : (Op.call callee n).stackGrowth = 1 := rfl
    rw [hgrowth]
    refine max_le_max le_rfl ?_
    omega

/-- The height of the stack stays below the offset of the walk, and the instruction fits. -/
theorem Charged.fits {slots : ℕ → ℤ} {P top : ℤ} (hs : Charged slots op s s')
    (hreq : opRequires op ≤ h) (hoff : (h : ℤ) ≤ P + s.offset) (htop : P + s'.peak ≤ top) :
    Fits slots top op h := by
  refine ⟨hreq, ?_, fun callee n heq => ?_⟩
  · have := hs.growth
    omega
  · have := hs.call callee n heq
    omega

theorem Charged.height {slots : ℕ → ℤ} {P : ℤ} (hs : Charged slots op s s')
    (hreq : opRequires op ≤ h) (hoff : (h : ℤ) ≤ P + s.offset) :
    ((h - opRequires op + opProduces op : ℕ) : ℤ) ≤ P + s'.offset := by
  have := hs.offset
  omega

/-- The peak of the walk stays above its offset. -/
theorem Charged.offset_le {slots : ℕ → ℤ} (hs : Charged slots op s s') :
    s'.offset ≤ s'.peak := by
  have hoff := hs.offset
  have hgrowth := hs.growth
  have hnet := opNet_eq op
  omega

/-- The walk at an instruction that is no delimiter ends there or goes on behind it. -/
theorem wcmuOp_leaf (hd : op.isDelimiter = false)
    (h : wcmuOp chunk r vsb walk lo hi s breaks nest op = .ok o) :
    ∃ s', Charged (r.slots vsb) op s s' ∧
      (op.next lo = [] ∧ o = (s'.exits, breaks) ∨ walk (lo + 1) hi s' breaks nest = .ok o) := by
  cases op with
  | ifOp | elseOp | endIf | loop | endLoop | «break» | breakIf => cases hd
  | trap | «return» =>
    obtain ⟨s', hs, h⟩ := bind_eq_ok h
    cases h
    exact ⟨s', account_ok (by rintro _ _ ⟨⟩) hs, .inl ⟨rfl, rfl⟩⟩
  | call callee n =>
    obtain ⟨slots, hslots, h⟩ := bind_eq_ok h
    obtain ⟨s', hs, h⟩ := bind_eq_ok h
    exact ⟨s', call_ok (calleeSlots_ok hslots).symm hs, .inr h⟩
  | _ =>
    obtain ⟨s', hs, h⟩ := bind_eq_ok h
    exact ⟨s', account_ok (by rintro _ _ ⟨⟩) hs, .inr h⟩

/-! ## The regions inside -/

theorem McuResult.lift_peak {offset : ℤ} {b b' : McuResult} (h : b.lift offset = .ok b') :
    b'.peakAboveInitial = offset.toNat + b.peakAboveInitial := by
  obtain ⟨peak, hpeak, h⟩ := bind_eq_ok h
  obtain ⟨delta, -, h⟩ := bind_eq_ok h
  cases h
  exact u32_ok hpeak

/-- Breaks are lifted one by one. -/
theorem lifted_peaks {offset : ℤ} {l l' : List McuResult}
    (h : l.mapM (McuResult.lift offset) = .ok l') :
    l'.map (·.peakAboveInitial) = l.map fun b => offset.toNat + b.peakAboveInitial := by
  induction l generalizing l' with
  | nil =>
    cases h
    rfl
  | cons a l ih =>
    rw [List.mapM_cons] at h
    obtain ⟨b, hb, h⟩ := bind_eq_ok h
    obtain ⟨bs, hbs, h⟩ := bind_eq_ok h
    cases h
    rw [List.map_cons, List.map_cons, McuResult.lift_peak hb, ih hbs]

theorem McuOutcome.lift_ok {offset : ℤ} {o o' : McuOutcome} (h : o.lift offset = .ok o') :
    o'.peakAboveInitial = offset.toNat + o.peakAboveInitial ∧
      o'.delta = o.delta.map (offset + ·) := by
  obtain ⟨peak, hpeak, h⟩ := bind_eq_ok h
  obtain rfl := u32_ok hpeak
  cases hd : o.delta with
  | none =>
    rw [hd] at h
    cases h
    exact ⟨rfl, rfl⟩
  | some d =>
    rw [hd] at h
    obtain ⟨delta, hdelta, h⟩ := bind_eq_ok h
    obtain rfl := i32_ok hdelta
    cases h
    exact ⟨rfl, rfl⟩

/-- The walk over a region inside keeps what was recorded before, and lifts its outcome. -/
theorem wcmuSubregion_ok {offset : ℤ} (h : wcmuSubregion walk lo hi offset breaks nest = .ok o) :
    ∃ o', walk lo hi ⟨0, 0, 0⟩ [] (nest + 1) = .ok o' ∧
      o.1.peakAboveInitial = offset.toNat + o'.1.peakAboveInitial ∧
      o.1.delta = o'.1.delta.map (offset + ·) ∧
      ∃ lifted, o.2 = breaks ++ lifted ∧ lifted.map (·.peakAboveInitial) =
        o'.2.map fun b => offset.toNat + b.peakAboveInitial := by
  obtain ⟨⟨result, subBreaks⟩, hwalk, h⟩ := bind_eq_ok h
  obtain ⟨lifted, hlifted, h⟩ := bind_eq_ok h
  obtain ⟨outcome, hlift, h⟩ := bind_eq_ok h
  cases h
  obtain ⟨hpeak, hdelta⟩ := McuOutcome.lift_ok hlift
  exact ⟨_, hwalk, hpeak, hdelta, lifted, rfl, lifted_peaks hlifted⟩

/-! ## The delimiters -/

theorem wcmuOp_break {k : ℕ} (h : wcmuOp chunk r vsb walk lo hi s breaks nest (.break k) = .ok o) :
    ∃ s', Charged (r.slots vsb) (.break k) s s' ∧ o = (s'.exits, breaks ++ [s'.leaving]) := by
  obtain ⟨s', hs, h⟩ := bind_eq_ok h
  exact ⟨s', account_ok (by rintro _ _ ⟨⟩) hs, (Except.ok.inj h).symm⟩

theorem wcmuOp_breakIf {k : ℕ}
    (h : wcmuOp chunk r vsb walk lo hi s breaks nest (.breakIf k) = .ok o) :
    ∃ s', Charged (r.slots vsb) (.breakIf k) s s' ∧
      walk (lo + 1) hi s' (breaks ++ [s'.leaving]) nest = .ok o := by
  obtain ⟨s', hs, h⟩ := bind_eq_ok h
  exact ⟨s', account_ok (by rintro _ _ ⟨⟩) hs, h⟩

theorem wcmuOp_ifThen (hnone : elseBefore chunk.ops m = none)
    (h : wcmuOp chunk r vsb walk lo hi s breaks nest (.ifOp m) = .ok o) :
    ∃ s₁ b s₂, Charged (r.slots vsb) (.ifOp m) s s₁ ∧
      wcmuSubregion walk (lo + 1) m s₁.offset breaks nest = .ok b ∧ s₁.peak ≤ s₂.peak ∧
      b.1.peakAboveInitial ≤ s₂.peak ∧ s₂.peak ≤ max s₁.peak b.1.peakAboveInitial ∧
      s₁.offset ≤ s₂.offset ∧ (s₂.offset = s₁.offset ∨ s₂.offset ∈ b.1.delta) ∧
      walk (m + 1) hi s₂ b.2 nest = .ok o := by
  obtain ⟨s₁, hs, h⟩ := bind_eq_ok h
  rw [hnone] at h
  obtain ⟨b, hb, h⟩ := bind_eq_ok h
  refine ⟨s₁, b, _, account_ok (by rintro _ _ ⟨⟩) hs, hb, le_max_left _ _, le_max_right _ _, le_rfl,
    ?_, ?_, h⟩
  · show s₁.offset ≤ b.1.delta.elim s₁.offset (max s₁.offset)
    cases b.1.delta with
    | none => exact le_rfl
    | some d => exact le_max_left _ _
  · show b.1.delta.elim s₁.offset (max s₁.offset) = s₁.offset ∨ _
    cases b.1.delta with
    | none => exact .inl rfl
    | some d => exact (max_choice s₁.offset d).imp_right (congrArg some ·.symm)

/-- The walk over a branch with an alternative. -/
theorem wcmuOp_ifElse {t : ℕ} (hsome : elseBefore chunk.ops m = some t)
    (h : wcmuOp chunk r vsb walk lo hi s breaks nest (.ifOp m) = .ok o) :
    ∃ s₁ b₁ b₂ s₂, Charged (r.slots vsb) (.ifOp m) s s₁ ∧
      wcmuSubregion walk (lo + 1) (m - 1) s₁.offset breaks nest = .ok b₁ ∧
      wcmuSubregion walk m t s₁.offset b₁.2 nest = .ok b₂ ∧ s₁.peak ≤ s₂.peak ∧
      b₁.1.peakAboveInitial ≤ s₂.peak ∧ b₂.1.peakAboveInitial ≤ s₂.peak ∧
      s₂.peak ≤ max (max s₁.peak b₁.1.peakAboveInitial) b₂.1.peakAboveInitial ∧
      (b₁.1.delta = none ∧ b₂.1.delta = none ∧ o = (s₂.exits, b₂.2) ∨
        (∀ d, d ∈ b₁.1.delta ∨ d ∈ b₂.1.delta → d ≤ s₂.offset) ∧
        (s₂.offset ∈ b₁.1.delta ∨ s₂.offset ∈ b₂.1.delta) ∧
        walk (t + 1) hi s₂ b₂.2 nest = .ok o) := by
  obtain ⟨s₁, hs, h⟩ := bind_eq_ok h
  rw [hsome] at h
  obtain ⟨⟨o₁, breaks₁⟩, hb₁, h⟩ := bind_eq_ok h
  obtain ⟨⟨o₂, breaks₂⟩, hb₂, h⟩ := bind_eq_ok h
  have hpeak : s₁.peak ≤ max (max s₁.peak o₁.peakAboveInitial) o₂.peakAboveInitial := by omega
  have hpeak₁ : o₁.peakAboveInitial ≤ max (max s₁.peak o₁.peakAboveInitial) o₂.peakAboveInitial := by
    omega
  have hpeak₂ : o₂.peakAboveInitial ≤ max (max s₁.peak o₁.peakAboveInitial) o₂.peakAboveInitial := by
    omega
  have hstep : Charged (r.slots vsb) _ s s₁ := account_ok (by rintro _ _ ⟨⟩) hs
  dsimp only at h
  split at h
  next a b ha hb =>
    refine ⟨s₁, _, _, _, hstep, hb₁, hb₂, hpeak, hpeak₁, hpeak₂, le_rfl, .inr ⟨?_, ?_, h⟩⟩
    · rintro d (hd | hd)
      · obtain rfl := Option.some.inj (ha.symm.trans hd)
        exact le_max_left _ _
      · obtain rfl := Option.some.inj (hb.symm.trans hd)
        exact le_max_right _ _
    · rcases max_choice a b with heq | heq
      · exact .inl (ha.trans (congrArg some heq.symm))
      · exact .inr (hb.trans (congrArg some heq.symm))
  next a ha hb =>
    refine ⟨s₁, _, _, _, hstep, hb₁, hb₂, hpeak, hpeak₁, hpeak₂, le_rfl, .inr ⟨?_, .inl ha, h⟩⟩
    rintro d (hd | hd)
    · exact (Option.some.inj (hd.symm.trans ha)).le
    · cases hb.symm.trans hd
  next b ha hb =>
    refine ⟨s₁, _, _, _, hstep, hb₁, hb₂, hpeak, hpeak₁, hpeak₂, le_rfl, .inr ⟨?_, .inr hb, h⟩⟩
    rintro d (hd | hd)
    · cases ha.symm.trans hd
    · exact (Option.some.inj (hd.symm.trans hb)).le
  next ha hb =>
    cases h
    exact ⟨s₁, _, _, _, hstep, hb₁, hb₂, hpeak, hpeak₁, hpeak₂, le_rfl, .inl ⟨ha, hb, rfl⟩⟩

theorem foldl_max_le {l : List ℕ} {P : ℕ} (h : ∀ a ∈ l, a ≤ P) : l.foldl max 0 ≤ P :=
  List.foldlRecOn (motive := (· ≤ P)) l max (Nat.zero_le P) fun _ hb a ha => max_le hb (h a ha)

theorem wcmuOp_loop (h : wcmuOp chunk r vsb walk lo hi s breaks nest (.loop m) = .ok o) :
    ∃ s₁ b s₂, Charged (r.slots vsb) (.loop m) s s₁ ∧
      wcmuSubregion walk (lo + 1) (m - 1) s₁.offset [] nest = .ok b ∧ s₂.offset = s₁.offset ∧
      s₁.peak ≤ s₂.peak ∧ b.1.peakAboveInitial ≤ s₂.peak ∧
      (∀ P, s₁.peak ≤ P → b.1.peakAboveInitial ≤ P → (∀ l ∈ b.2, l.peakAboveInitial ≤ P) →
        s₂.peak ≤ P) ∧
      (b.2 = [] ∧ o = (s₂.exits, breaks) ∨ walk m hi s₂ breaks nest = .ok o) := by
  obtain ⟨s₁, hs, h⟩ := bind_eq_ok h
  obtain ⟨⟨o₁, loopBreaks⟩, hb, h⟩ := bind_eq_ok h
  obtain ⟨n, -, h⟩ := bind_eq_ok h
  have hstep : Charged (r.slots vsb) _ s s₁ := account_ok (by rintro _ _ ⟨⟩) hs
  have hpeak (k : ℕ) : s₁.peak ≤ max (max s₁.peak o₁.peakAboveInitial) k := by omega
  have hpeak' (k : ℕ) : o₁.peakAboveInitial ≤ max (max s₁.peak o₁.peakAboveInitial) k := by omega
  have hcap (P : ℕ) (h₁ : s₁.peak ≤ P) (h₂ : o₁.peakAboveInitial ≤ P)
      (h₃ : ∀ l ∈ loopBreaks, l.peakAboveInitial ≤ P) : max (max s₁.peak o₁.peakAboveInitial)
        ((loopBreaks.map (·.peakAboveInitial)).foldl max 0) ≤ P :=
    max_le (max_le h₁ h₂) (foldl_max_le (List.forall_mem_map.mpr h₃))
  dsimp only at h
  split at h
  next hnone =>
    cases h
    refine ⟨s₁, _, _, hstep, hb, ?_, ?_, ?_, hcap,
      .inl ⟨List.isEmpty_iff.mp (Bool.and_eq_true_iff.mp hnone).1, rfl⟩⟩
    exacts [rfl, hpeak _, hpeak' _]
  next =>
    refine ⟨s₁, _, _, hstep, hb, ?_, ?_, ?_, hcap, .inr h⟩
    exacts [rfl, hpeak _, hpeak' _]

/-! ## What every walk does -/

/-- The walk does not lower its peak, which stays above its offset, and forgets no break. -/
structure Grows (s : McuState) (breaks : List McuResult) (o : McuOutcome × List McuResult) :
    Prop where
  peak : s.peak ≤ o.1.peakAboveInitial
  delta : ∀ d ∈ o.1.delta, d ≤ o.1.peakAboveInitial
  breaks : breaks <+: o.2

theorem Grows.trans {b : List McuResult} (hpeak : s.peak ≤ s'.peak) (hbreaks : breaks <+: b)
    (h : Grows s' b o) : Grows s breaks o :=
  ⟨hpeak.trans h.peak, h.delta, hbreaks.trans h.breaks⟩

theorem Grows.exits {b : List McuResult} (hpeak : s.peak ≤ s'.peak) (hbreaks : breaks <+: b) :
    Grows s breaks (s'.exits, b) :=
  ⟨hpeak, by rintro _ ⟨⟩, hbreaks⟩

/-- The walk takes a step at an instruction, or is at the end. -/
theorem wcmuRegionAt_ok (h : wcmuRegionAt chunk r vsb fuel lo hi s breaks nest = .ok o) :
    min hi chunk.ops.length ≤ lo ∧ o = (⟨s.peak, s.heap, some s.offset⟩, breaks) ∨
    ∃ f op, fuel = f + 1 ∧ lo < hi ∧ chunk.ops[lo]? = some op ∧
      wcmuOp chunk r vsb (wcmuRegionAt chunk r vsb f) lo hi s breaks nest op = .ok o := by
  cases fuel with
  | zero => cases h
  | succ f =>
    unfold wcmuRegionAt at h
    split at h
    · cases h
    split at h
    next hend => exact .inl ⟨hend, (Except.ok.inj h).symm⟩
    next hend =>
    split at h
    · cases h
    next op hop => exact .inr ⟨f, op, rfl, by omega, hop, h⟩

/-- The walk at an instruction of a region. -/
theorem wcmuRegionAt_op (h : wcmuRegionAt chunk r vsb fuel lo hi s breaks nest = .ok o)
    (hlt : lo < hi) (hop : chunk.ops[lo]? = some op) :
    ∃ f, wcmuOp chunk r vsb (wcmuRegionAt chunk r vsb f) lo hi s breaks nest op = .ok o := by
  have hlen := (List.getElem?_eq_some_iff.mp hop).1
  rcases wcmuRegionAt_ok h with ⟨hend, -⟩ | ⟨f, op', -, -, hop', h⟩
  · omega
  · cases hop.symm.trans hop'
    exact ⟨f, h⟩

/-- The walk over a region inside grows from nothing. -/
theorem wcmuSubregion_grows {offset : ℤ}
    (hwalk : ∀ lo hi o, walk lo hi ⟨0, 0, 0⟩ [] (nest + 1) = .ok o → Grows ⟨0, 0, 0⟩ [] o)
    (h : wcmuSubregion walk lo hi offset breaks nest = .ok o) :
    (∀ d ∈ o.1.delta, d ≤ o.1.peakAboveInitial) ∧ breaks <+: o.2 := by
  obtain ⟨o', hinner, hpeak, hdelta, lifted, heq, -⟩ := wcmuSubregion_ok h
  refine ⟨fun d hd => ?_, heq ▸ List.prefix_append _ _⟩
  rw [hdelta] at hd
  obtain ⟨d', hd', rfl⟩ := Option.map_eq_some_iff.mp hd
  have := (hwalk lo hi o' hinner).delta d' hd'
  have := Int.self_le_toNat offset
  rw [hpeak]
  push_cast
  omega

theorem wcmuRegionAt_grows (hle : s.offset ≤ s.peak)
    (h : wcmuRegionAt chunk r vsb fuel lo hi s breaks nest = .ok o) : Grows s breaks o := by
  induction fuel generalizing lo hi s breaks nest o with
  | zero => cases h
  | succ f ih =>
    rcases wcmuRegionAt_ok h with ⟨-, rfl⟩ | ⟨f', op, hf, -, hop, h⟩
    · refine ⟨le_rfl, fun d hd => ?_, List.prefix_rfl⟩
      obtain rfl := Option.some.inj hd
      exact hle
    obtain rfl := Nat.succ.inj hf
    have hsub {lo hi : ℕ} {offset : ℤ} {breaks : List McuResult} {b : McuOutcome × List McuResult}
        (h : wcmuSubregion (wcmuRegionAt chunk r vsb f) lo hi offset breaks nest = .ok b) :=
      wcmuSubregion_grows (fun _ _ _ h => ih (le_refl 0) h) h
    by_cases hd : op.isDelimiter = false
    · obtain ⟨s', hs, ⟨-, rfl⟩ | h⟩ := wcmuOp_leaf hd h
      · exact .exits hs.peak List.prefix_rfl
      · exact .trans hs.peak List.prefix_rfl (ih hs.offset_le h)
    cases op with
    | elseOp | endIf | endLoop => exact ih hle h
    | «break» k =>
      obtain ⟨s', hs, rfl⟩ := wcmuOp_break h
      exact .exits hs.peak (List.prefix_append _ _)
    | breakIf k =>
      obtain ⟨s', hs, h⟩ := wcmuOp_breakIf h
      exact .trans hs.peak (List.prefix_append _ _) (ih hs.offset_le h)
    | ifOp t =>
      cases helse : elseBefore chunk.ops t with
      | none =>
        obtain ⟨s₁, b, s₂, hs, hb, hpeak, hpeak', -, -, hoff, h⟩ := wcmuOp_ifThen helse h
        obtain ⟨hdelta, hbreaks⟩ := hsub hb
        refine .trans (hs.peak.trans hpeak) hbreaks (ih ?_ h)
        rcases hoff with heq | hmem
        · have := hs.offset_le
          omega
        · have := hdelta _ hmem
          omega
      | some t' =>
        obtain ⟨s₁, b₁, b₂, s₂, hs, hb₁, hb₂, hpeak, hpeak₁, hpeak₂, -, hrest⟩ :=
          wcmuOp_ifElse helse h
        obtain ⟨hdelta₁, hbreaks₁⟩ := hsub hb₁
        obtain ⟨hdelta₂, hbreaks₂⟩ := hsub hb₂
        rcases hrest with ⟨-, -, rfl⟩ | ⟨-, hmem, h⟩
        · exact .exits (hs.peak.trans hpeak) (hbreaks₁.trans hbreaks₂)
        · refine .trans (hs.peak.trans hpeak) (hbreaks₁.trans hbreaks₂) (ih ?_ h)
          rcases hmem with hmem | hmem
          · have := hdelta₁ _ hmem
            omega
          · have := hdelta₂ _ hmem
            omega
    | loop t =>
      obtain ⟨s₁, b, s₂, hs, -, hoff, hpeak, -, -, ⟨-, rfl⟩ | h⟩ := wcmuOp_loop h
      · exact .exits (hs.peak.trans hpeak) List.prefix_rfl
      · refine .trans (hs.peak.trans hpeak) List.prefix_rfl (ih ?_ h)
        have := hs.offset_le
        omega
    | _ => exact absurd rfl hd

/-! ## Every path -/

/-- What the walk over a balanced region is right about, for heights above `P`. -/
structure Spans (chunk : Chunk) (slots : ℕ → ℤ) (x : Option ℕ) (lo hi h : ℕ) (e : Option ℕ)
    (bs : List ℕ) (P : ℤ) (breaks : List McuResult) (o : McuOutcome × List McuResult) : Prop where
  ends : ∀ h' ∈ e, ∃ d ∈ o.1.delta, (h' : ℤ) ≤ P + d
  breaks : bs ≠ [] → breaks.length < o.2.length
  fits : ∀ top, P + o.1.peakAboveInitial ≤ top →
    RegionTriple chunk.ops heightEff (fun _ => Fits slots top) x lo hi {h} {h' | h' ∈ e} {b | b ∈ bs}

/-- An instruction that fits takes a height to the next one. -/
theorem Fits.triple {slots : ℕ → ℤ} {top : ℤ} {h' : ℕ} (hf : Fits slots top op h)
    (heq : h' = h - opRequires op + opProduces op) :
    OpTriple heightEff (Fits slots top) op {h} {h'} := by
  rintro _ rfl
  exact ⟨hf, fun v hv => hv.2.trans heq.symm⟩

/-- A delimiter that does nothing fits wherever the height does. -/
theorem fits_neutral {slots : ℕ → ℤ} {top : ℤ} (hd : op.isDelimiter = true) (hg : op.stackGrowth = 0)
    (hreq : opRequires op = 0) (htop : (h : ℤ) ≤ top) : Fits slots top op h := by
  refine ⟨by omega, by omega, fun callee n heq => ?_⟩
  rw [heq] at hd
  cases hd

/-- What is right about a region inside is right about it from the start of the one around. -/
theorem Spans.lift {slots : ℕ → ℤ} {P offset : ℤ} {o' : McuOutcome × List McuResult}
    (hs : Spans chunk slots x lo hi h e bs (P + offset) [] o')
    (hpeak : o.1.peakAboveInitial = offset.toNat + o'.1.peakAboveInitial)
    (hdelta : o.1.delta = o'.1.delta.map (offset + ·))
    (hbreaks : ∃ lifted, o.2 = breaks ++ lifted ∧ lifted.map (·.peakAboveInitial) =
      o'.2.map fun b => offset.toNat + b.peakAboveInitial) :
    Spans chunk slots x lo hi h e bs P breaks o where
  ends h' hh := by
    obtain ⟨d, hd, hle⟩ := hs.ends h' hh
    rw [hdelta]
    exact ⟨offset + d, Option.mem_map_of_mem _ hd, by omega⟩
  breaks hne := by
    obtain ⟨lifted, heq, hlifted⟩ := hbreaks
    have hpos := hs.breaks hne
    have hlen := congrArg List.length hlifted
    rw [List.length_map, List.length_map] at hlen
    rw [heq, List.length_append, hlen]
    exact Nat.lt_add_of_pos_right hpos
  fits top htop := by
    refine hs.fits top ?_
    have := Int.self_le_toNat offset
    rw [hpeak] at htop
    push_cast at htop
    omega

/-- Every walk over the region is right about it. -/
def Spanned (chunk : Chunk) (r : CallResolver) (vsb : ℕ) (x : Option ℕ) (lo hi h : ℕ) (e : Option ℕ)
    (bs : List ℕ) : Prop :=
  ∀ fuel s breaks nest o (P : ℤ), (h : ℤ) ≤ P + s.offset → s.offset ≤ s.peak →
    wcmuRegionAt chunk r vsb fuel lo hi s breaks nest = .ok o →
    Spans chunk (r.slots vsb) x lo hi h e bs P breaks o

namespace Spanned

/-- The walk over a region inside. -/
theorem inside {offset P : ℤ} (hs : Spanned chunk r vsb x lo hi h e bs)
    (hoff : (h : ℤ) ≤ P + offset)
    (hsub : wcmuSubregion (wcmuRegionAt chunk r vsb fuel) lo hi offset breaks nest = .ok o) :
    Spans chunk (r.slots vsb) x lo hi h e bs P breaks o ∧
      (∀ d ∈ o.1.delta, d ≤ o.1.peakAboveInitial) ∧ breaks.length ≤ o.2.length := by
  obtain ⟨o', hwalk, hpeak, hdelta, hbreaks⟩ := wcmuSubregion_ok hsub
  obtain ⟨hends, hprefix⟩ :=
    wcmuSubregion_grows (fun _ _ _ hwalk => wcmuRegionAt_grows (le_refl 0) hwalk) hsub
  have hspans := hs fuel ⟨0, 0, 0⟩ [] (nest + 1) o' (P + offset) (by simpa using hoff) (le_refl 0) hwalk
  exact ⟨hspans.lift hpeak hdelta hbreaks, hends, hprefix.length_le⟩

theorem nil : Spanned chunk r vsb x lo lo h (some h) [] := by
  intro fuel s breaks nest o P hoff hle hwalk
  rcases wcmuRegionAt_ok hwalk with ⟨-, rfl⟩ | ⟨f, op, -, hlt, -⟩
  · refine ⟨fun h' hh => ?_, fun hne => absurd rfl hne, fun top htop => .nil fun v hv => ?_⟩
    · obtain rfl := Option.some.inj hh
      exact ⟨s.offset, rfl, hoff⟩
    · exact congrArg some (Set.mem_singleton_iff.mp hv).symm
  · omega

theorem leaf (hop : chunk.ops[lo]? = some op) (hd : op.isDelimiter = false)
    (hreq : opRequires op ≤ h) (hnext : lo + 1 ∈ op.next lo) (hlt : lo < hi)
    (rest : Spanned chunk r vsb x (lo + 1) hi (h - opRequires op + opProduces op) e bs) :
    Spanned chunk r vsb x lo hi h e bs := by
  intro fuel s breaks nest o P hoff hle hwalk
  obtain ⟨f, hwalk⟩ := wcmuRegionAt_op hwalk hlt hop
  obtain ⟨s', hs, ⟨hnil, -⟩ | hwalk⟩ := wcmuOp_leaf hd hwalk
  · rw [hnil] at hnext
    cases hnext
  have hgrows := wcmuRegionAt_grows hs.offset_le hwalk
  have hrec := rest f s' breaks nest o P (hs.height hreq hoff) hs.offset_le hwalk
  refine ⟨hrec.ends, hrec.breaks, fun top htop => ?_⟩
  have hfits : Fits (r.slots vsb) top op h := hs.fits hreq hoff (by have := hgrows.peak; omega)
  exact .leaf hop (fun _ => next_leaf hd) (hfits.triple rfl) (hrec.fits top htop)

theorem halt (hop : chunk.ops[lo]? = some op) (hd : op.isDelimiter = false)
    (hreq : opRequires op ≤ h) (hnext : op.next lo = []) (hlt : lo < hi) :
    Spanned chunk r vsb x lo hi h none [] := by
  intro fuel s breaks nest o P hoff hle hwalk
  obtain ⟨f, hwalk⟩ := wcmuRegionAt_op hwalk hlt hop
  obtain ⟨s', hs, hrest⟩ := wcmuOp_leaf hd hwalk
  have hpeak : s'.peak ≤ o.1.peakAboveInitial := by
    rcases hrest with ⟨-, rfl⟩ | hwalk
    · exact le_rfl
    · exact (wcmuRegionAt_grows hs.offset_le hwalk).peak
  refine ⟨by rintro _ ⟨⟩, fun hne => absurd rfl hne, fun top htop => ?_⟩
  have hfits : Fits (r.slots vsb) top op h := hs.fits hreq hoff (by omega)
  exact .halt hop hnext (hfits.triple rfl)

theorem «break» {k : ℕ} (hop : chunk.ops[lo]? = some (.break k)) (hlt : lo < hi) :
    Spanned chunk r vsb (some k) lo hi h none [h] := by
  intro fuel s breaks nest o P hoff hle hwalk
  obtain ⟨f, hwalk⟩ := wcmuRegionAt_op hwalk hlt hop
  obtain ⟨s', hs, rfl⟩ := wcmuOp_break hwalk
  refine ⟨by rintro _ ⟨⟩, fun _ => ?_, fun top htop => ?_⟩
  · rw [List.length_append]
    exact Nat.lt_succ_self _
  · have hfits : Fits (r.slots vsb) top (.break k) h := hs.fits (Nat.zero_le h) hoff htop
    refine .break hop ((hfits.triple rfl).mono (Set.Subset.refl _) ?_)
    rintro _ rfl
    exact List.mem_singleton_self _

theorem breakIf {k : ℕ} (hop : chunk.ops[lo]? = some (.breakIf k)) (hreq : 1 ≤ h) (hlt : lo < hi)
    (rest : Spanned chunk r vsb (some k) (lo + 1) hi (h - 1) e bs) :
    Spanned chunk r vsb (some k) lo hi h e ((h - 1) :: bs) := by
  intro fuel s breaks nest o P hoff hle hwalk
  obtain ⟨f, hwalk⟩ := wcmuRegionAt_op hwalk hlt hop
  obtain ⟨s', hs, hwalk⟩ := wcmuOp_breakIf hwalk
  have hgrows := wcmuRegionAt_grows hs.offset_le hwalk
  have hrec := rest f s' _ nest o P (hs.height hreq hoff) hs.offset_le hwalk
  refine ⟨hrec.ends, fun _ => ?_, fun top htop => ?_⟩
  · have := hgrows.breaks.length_le
    rw [List.length_append] at this
    exact this
  · have hfits : Fits (r.slots vsb) top (.breakIf k) h :=
      hs.fits hreq hoff (by have := hgrows.peak; omega)
    refine .breakIf hop (hfits.triple rfl) ?_ ((hrec.fits top htop).mono (Set.Subset.refl _)
      (Set.Subset.refl _) fun b hb => List.mem_cons_of_mem _ hb)
    rintro _ rfl
    exact List.mem_cons_self

theorem ifThen {e₁ : Option ℕ} {bs₁ : List ℕ} (hif : chunk.ops[lo]? = some (.ifOp m))
    (hreq : 1 ≤ h) (hregion : Region Eq chunk.ops x (lo + 1) m)
    (body : Spanned chunk r vsb x (lo + 1) m (h - 1) e₁ bs₁) (hjoin : ∀ h' ∈ e₁, h' = h - 1)
    (hend : chunk.ops[m]? = some .endIf) (hlt : m < hi)
    (rest : Spanned chunk r vsb x (m + 1) hi (h - 1) e bs) :
    Spanned chunk r vsb x lo hi h e (bs₁ ++ bs) := by
  intro fuel s breaks nest o P hoff hle hwalk
  have hlt' := hregion.le
  obtain ⟨f, hwalk⟩ := wcmuRegionAt_op hwalk (by omega) hif
  obtain ⟨s₁, b, s₂, hs, hb, hpeak, hpeak', -, hoff₂, hchoice, hwalk⟩ :=
    wcmuOp_ifThen (hregion.elseBefore_none hif) hwalk
  have hheight := hs.height hreq hoff
  obtain ⟨hbody, hdelta, hlen⟩ := body.inside hheight hb
  have hle₂ : s₂.offset ≤ s₂.peak := by
    rcases hchoice with heq | hmem
    · have := hs.offset_le
      omega
    · have := hdelta _ hmem
      omega
  have hgrows := wcmuRegionAt_grows hle₂ hwalk
  have hheight' : ((h - 1 : ℕ) : ℤ) ≤ P + s₁.offset := hheight
  have hrec := rest f s₂ _ nest o P (by omega) hle₂ hwalk
  have hlen' := hgrows.breaks.length_le
  have htop' := hgrows.peak
  refine ⟨hrec.ends, fun hne => ?_, fun top htop => ?_⟩
  · by_cases hbs₁ : bs₁ = []
    · subst hbs₁
      exact hlen.trans_lt (hrec.breaks hne)
    · exact (hbody.breaks hbs₁).trans_le hlen'
  · have hfits : Fits (r.slots vsb) top (.ifOp m) h := hs.fits hreq hoff (by omega)
    have hmeet : Fits (r.slots vsb) top .endIf (h - 1) :=
      fits_neutral rfl rfl rfl (by have := hs.offset_le; omega)
    refine .ifThen hif (hfits.triple rfl) ((hbody.fits top (by omega)).mono (Set.Subset.refl _)
      (Set.Subset.refl _) fun b hb => List.mem_append_left _ hb) hend
      ((hmeet.triple rfl).mono ?_ (Set.Subset.refl _)) ((hrec.fits top htop).mono
        (Set.Subset.refl _) (Set.Subset.refl _) fun b hb => List.mem_append_right _ hb)
    rintro v (hv | hv)
    · exact hjoin v hv
    · exact hv

/-- A branch with an alternative, of which one side at least comes to its end. -/
theorem ifElse {e₁ e₂ : Option ℕ} {t j : ℕ} {bs₁ bs₂ : List ℕ}
    (hif : chunk.ops[lo]? = some (.ifOp (m + 1))) (hreq : 1 ≤ h) (hlt : lo < m)
    (thenBody : Spanned chunk r vsb x (lo + 1) m (h - 1) e₁ bs₁)
    (helse : chunk.ops[m]? = some (.elseOp t)) (hlt' : m < t)
    (elseBody : Spanned chunk r vsb x (m + 1) t (h - 1) e₂ bs₂)
    (hend : chunk.ops[t]? = some .endIf) (hcomes : e₁.isSome ∨ e₂.isSome)
    (hjoin : ∀ h', h' ∈ e₁ ∨ h' ∈ e₂ → h' = j) (hlt'' : t < hi)
    (rest : Spanned chunk r vsb x (t + 1) hi j e bs) :
    Spanned chunk r vsb x lo hi h e (bs₁ ++ (bs₂ ++ bs)) := by
  intro fuel s breaks nest o P hoff hle hwalk
  obtain ⟨f, hwalk⟩ := wcmuRegionAt_op hwalk (by omega) hif
  obtain ⟨s₁, b₁, b₂, s₂, hs, hb₁, hb₂, hpeak, hpeak₁, hpeak₂, -, hrest⟩ :=
    wcmuOp_ifElse (elseBefore_some helse) hwalk
  have hheight : ((h - 1 : ℕ) : ℤ) ≤ P + s₁.offset := hs.height hreq hoff
  obtain ⟨hthen, hdelta₁, hlen₁⟩ := thenBody.inside hheight hb₁
  obtain ⟨helse', hdelta₂, hlen₂⟩ := elseBody.inside hheight hb₂
  -- an end that control comes to has an offset above it
  have hends : ∃ d, (d ∈ b₁.1.delta ∨ d ∈ b₂.1.delta) ∧ (j : ℤ) ≤ P + d := by
    rcases hcomes with hsome | hsome
    · obtain ⟨h', hh⟩ := Option.isSome_iff_exists.mp hsome
      obtain rfl := hjoin h' (.inl hh)
      obtain ⟨d, hd, hle⟩ := hthen.ends h' hh
      exact ⟨d, .inl hd, hle⟩
    · obtain ⟨h', hh⟩ := Option.isSome_iff_exists.mp hsome
      obtain rfl := hjoin h' (.inr hh)
      obtain ⟨d, hd, hle⟩ := helse'.ends h' hh
      exact ⟨d, .inr hd, hle⟩
  obtain ⟨d, hd, hjle⟩ := hends
  rcases hrest with ⟨hnone₁, hnone₂, -⟩ | ⟨hmax, hmem, hwalk⟩
  · rw [hnone₁, hnone₂] at hd
    rcases hd with hd | hd <;> cases hd
  have hle₂ : s₂.offset ≤ s₂.peak := by
    rcases hmem with hmem | hmem
    · have := hdelta₁ _ hmem
      omega
    · have := hdelta₂ _ hmem
      omega
  have hgrows := wcmuRegionAt_grows hle₂ hwalk
  have hjoff : (j : ℤ) ≤ P + s₂.offset := by
    have := hmax d hd
    omega
  have hrec := rest f s₂ _ nest o P hjoff hle₂ hwalk
  have hlen := hgrows.breaks.length_le
  have htop' := hgrows.peak
  refine ⟨hrec.ends, fun hne => ?_, fun top htop => ?_⟩
  · by_cases hbs₁ : bs₁ = []
    · by_cases hbs₂ : bs₂ = []
      · subst hbs₁ hbs₂
        have := hrec.breaks hne
        omega
      · have := helse'.breaks hbs₂
        omega
    · have := hthen.breaks hbs₁
      omega
  · have hfits : Fits (r.slots vsb) top (.ifOp (m + 1)) h := hs.fits hreq hoff (by omega)
    have hmeet {op : Op} (hd : op.isDelimiter = true) (hg : op.stackGrowth = 0)
        (hreq : opRequires op = 0) : Fits (r.slots vsb) top op j :=
      fits_neutral hd hg hreq (by omega)
    have hskip : OpTriple heightEff (Fits (r.slots vsb) top) (.elseOp t) {h' | h' ∈ e₁} {j} :=
      ((hmeet rfl rfl rfl).triple rfl).mono (fun v hv => hjoin v (.inl hv)) (Set.Subset.refl _)
    refine .ifElse hif (hfits.triple rfl)
      ((hthen.fits top (by omega)).mono (Set.Subset.refl _) (Set.Subset.refl _)
        fun b hb => List.mem_append_left _ hb) helse hskip
      ((helse'.fits top (by omega)).mono (Set.Subset.refl _) (Set.Subset.refl _)
        fun b hb => List.mem_append_right _ (List.mem_append_left _ hb)) hend
      (((hmeet rfl rfl rfl).triple rfl).mono ?_ (Set.Subset.refl _))
      ((hrec.fits top htop).mono (Set.Subset.refl _) (Set.Subset.refl _)
        fun b hb => List.mem_append_right _ (List.mem_append_right _ hb))
    rintro v (hv | hv)
    · exact hv
    · exact hjoin v (.inr hv)

/-- A branch of which no side comes to its end. -/
theorem ifLeaves {t : ℕ} {bs₁ bs₂ : List ℕ} (hif : chunk.ops[lo]? = some (.ifOp (m + 1)))
    (hreq : 1 ≤ h) (hlt : lo < m) (thenBody : Spanned chunk r vsb x (lo + 1) m (h - 1) none bs₁)
    (helse : chunk.ops[m]? = some (.elseOp t)) (hlt' : m < t)
    (elseBody : Spanned chunk r vsb x (m + 1) t (h - 1) none bs₂)
    (hend : chunk.ops[t]? = some .endIf) (hlt'' : t < hi) :
    Spanned chunk r vsb x lo hi h none (bs₁ ++ bs₂) := by
  intro fuel s breaks nest o P hoff hle hwalk
  obtain ⟨f, hwalk⟩ := wcmuRegionAt_op hwalk (by omega) hif
  obtain ⟨s₁, b₁, b₂, s₂, hs, hb₁, hb₂, hpeak, hpeak₁, hpeak₂, -, hrest⟩ :=
    wcmuOp_ifElse (elseBefore_some helse) hwalk
  have hheight : ((h - 1 : ℕ) : ℤ) ≤ P + s₁.offset := hs.height hreq hoff
  obtain ⟨hthen, hdelta₁, hlen₁⟩ := thenBody.inside hheight hb₁
  obtain ⟨helse', hdelta₂, hlen₂⟩ := elseBody.inside hheight hb₂
  have hgrows : s₂.peak ≤ o.1.peakAboveInitial ∧ b₂.2.length ≤ o.2.length := by
    rcases hrest with ⟨-, -, rfl⟩ | ⟨-, hmem, hwalk⟩
    · exact ⟨le_rfl, le_rfl⟩
    · have hgrows := wcmuRegionAt_grows (s := s₂) (by
        rcases hmem with hmem | hmem
        · have := hdelta₁ _ hmem
          omega
        · have := hdelta₂ _ hmem
          omega) hwalk
      exact ⟨hgrows.peak, hgrows.breaks.length_le⟩
  obtain ⟨htop', hlen⟩ := hgrows
  refine ⟨by rintro _ ⟨⟩, fun hne => ?_, fun top htop => ?_⟩
  · by_cases hbs₁ : bs₁ = []
    · subst hbs₁
      have := helse'.breaks hne
      omega
    · have := hthen.breaks hbs₁
      omega
  · have hfits : Fits (r.slots vsb) top (.ifOp (m + 1)) h := hs.fits hreq hoff (by omega)
    have hskip : OpTriple heightEff (Fits (r.slots vsb) top) (.elseOp t) {h' | h' ∈ none} ∅ := by
      rintro _ ⟨⟩
    refine .ifElse hif (hfits.triple rfl)
      ((hthen.fits top (by omega)).mono (Set.Subset.refl _) (Set.Subset.refl _)
        fun b hb => List.mem_append_left _ hb) helse hskip
      ((helse'.fits top (by omega)).mono (Set.Subset.refl _) (Set.Subset.refl _)
        fun b hb => List.mem_append_right _ hb) hend (J := ∅) ?_ .empty
    rintro v (hv | hv) <;> cases hv

/-- A loop that control leaves, with no more operands than it has entered it with. -/
theorem loop {e₁ : Option ℕ} {j : ℕ} {bs₁ : List ℕ} (hloop : chunk.ops[lo]? = some (.loop (m + 1)))
    (hlt : lo < m) (body : Spanned chunk r vsb (some (m + 1)) (lo + 1) m h e₁ bs₁)
    (hback : ∀ h' ∈ e₁, h' = h) (hend : chunk.ops[m]? = some (.endLoop (lo + 1)))
    (hleaves : bs₁ ≠ []) (hexit : ∀ b ∈ bs₁, b = j) (hle : j ≤ h) (hlt' : m < hi)
    (rest : Spanned chunk r vsb x (m + 1) hi j e bs) : Spanned chunk r vsb x lo hi h e bs := by
  intro fuel s breaks nest o P hoff hle' hwalk
  obtain ⟨f, hwalk⟩ := wcmuRegionAt_op hwalk (by omega) hloop
  obtain ⟨s₁, b, s₂, hs, hb, hoff₂, hpeak, hpeak', -, hrest⟩ := wcmuOp_loop hwalk
  have hheight : (h : ℤ) ≤ P + s₁.offset := hs.height (Nat.zero_le h) hoff
  have hstart := hs.offset_le
  obtain ⟨hbody, hdelta, hlen⟩ := body.inside hheight hb
  have hpos := hbody.breaks hleaves
  rcases hrest with ⟨hnil, -⟩ | hwalk
  · rw [hnil] at hpos
    exact absurd hpos (lt_irrefl 0)
  have hle₂ : s₂.offset ≤ s₂.peak := by omega
  have hgrows := wcmuRegionAt_grows hle₂ hwalk
  have hrec := rest f s₂ _ nest o P (by omega) hle₂ hwalk
  have htop' := hgrows.peak
  refine ⟨hrec.ends, hrec.breaks, fun top htop => ?_⟩
  have hfits : Fits (r.slots vsb) top (.loop (m + 1)) h := hs.fits (Nat.zero_le h) hoff (by omega)
  have hturn : Fits (r.slots vsb) top (.endLoop (lo + 1)) h := fits_neutral rfl rfl rfl (by omega)
  exact .loop hloop (hfits.triple rfl) ((hbody.fits top (by omega)).mono (Set.Subset.refl _)
    (Set.Subset.refl _) hexit) hend ((hturn.triple rfl).mono hback (Set.Subset.refl _))
    (hrec.fits top htop)

/-- A loop that control does not leave. -/
theorem loopStays {e₁ : Option ℕ} (hloop : chunk.ops[lo]? = some (.loop (m + 1)))
    (hlt : lo < m) (body : Spanned chunk r vsb (some (m + 1)) (lo + 1) m h e₁ [])
    (hback : ∀ h' ∈ e₁, h' = h) (hend : chunk.ops[m]? = some (.endLoop (lo + 1))) (hlt' : m < hi) :
    Spanned chunk r vsb x lo hi h none [] := by
  intro fuel s breaks nest o P hoff hle' hwalk
  obtain ⟨f, hwalk⟩ := wcmuRegionAt_op hwalk (by omega) hloop
  obtain ⟨s₁, b, s₂, hs, hb, hoff₂, hpeak, hpeak', -, hrest⟩ := wcmuOp_loop hwalk
  have hheight : (h : ℤ) ≤ P + s₁.offset := hs.height (Nat.zero_le h) hoff
  have hstart := hs.offset_le
  obtain ⟨hbody, hdelta, hlen⟩ := body.inside hheight hb
  have htop' : s₂.peak ≤ o.1.peakAboveInitial := by
    rcases hrest with ⟨-, rfl⟩ | hwalk
    · exact le_rfl
    · exact (wcmuRegionAt_grows (by omega) hwalk).peak
  refine ⟨by rintro _ ⟨⟩, fun hne => absurd rfl hne, fun top htop => ?_⟩
  have hfits : Fits (r.slots vsb) top (.loop (m + 1)) h := hs.fits (Nat.zero_le h) hoff (by omega)
  have hturn : Fits (r.slots vsb) top (.endLoop (lo + 1)) h := fits_neutral rfl rfl rfl (by omega)
  exact .loop hloop (hfits.triple rfl) ((hbody.fits top (by omega)).mono (Set.Subset.refl _)
    (Set.Subset.refl _) (List.forall_mem_nil _)) hend
    ((hturn.triple rfl).mono hback (Set.Subset.refl _)) (J := ∅) .empty

end Spanned

/-- **The peak of a balanced region covers every path through it.** -/
theorem Balanced.spanned (hn : LoopsNeutral chunk.ops) (hb : Balanced chunk.ops x lo hi h e bs)
    (hr : FlowReaches chunk.ops heightEff 0 lo h) : Spanned chunk r vsb x lo hi h e bs := by
  induction hb with
  | nil => exact .nil
  | leaf hop hd hreq hnext rest ih =>
    exact .leaf hop hd hreq hnext rest.le (ih (hr.at_next hop hnext hreq rfl))
  | halt hop hd hreq hnext rest => exact .halt hop hd hreq hnext rest.le
  | «break» hop rest => exact .break hop rest.le
  | breakIf hop hreq rest ih =>
    exact .breakIf hop hreq rest.le (ih (hr.at_next hop List.mem_cons_self hreq rfl))
  | @ifThen x e e₁ lo m hi h bs bs₁ hif hreq hregion body hjoin hend rest ihb ihr =>
    have hskip : FlowReaches chunk.ops heightEff 0 m (h - 1) :=
      hr.at_next hif (List.mem_cons_of_mem _ (List.mem_singleton_self m)) hreq rfl
    exact .ifThen hif hreq hregion (ihb (hr.at_next hif List.mem_cons_self hreq rfl)) hjoin hend
      rest.le (ihr (hskip.at_next hend (List.mem_singleton_self _) (Nat.zero_le _) rfl))
  | @ifElse x e e₁ e₂ lo m t hi h j bs bs₁ bs₂ hif hreq thenBody helse elseBody hend hcomes hjoin
      rest iht ihe ihr =>
    have hthen : FlowReaches chunk.ops heightEff 0 (lo + 1) (h - 1) :=
      hr.at_next hif List.mem_cons_self hreq rfl
    have helse' : FlowReaches chunk.ops heightEff 0 (m + 1) (h - 1) :=
      hr.at_next hif (List.mem_cons_of_mem _ (List.mem_singleton_self _)) hreq rfl
    exact .ifElse hif hreq thenBody.le (iht hthen) helse elseBody.le (ihe helse') hend hcomes hjoin
      rest.le (ihr (flows_meet helse hend hcomes hjoin (thenBody.flows hthen).1
        (elseBody.flows helse').1))
  | ifLeaves hif hreq thenBody helse elseBody hend rest iht ihe =>
    exact .ifLeaves hif hreq thenBody.le (iht (hr.at_next hif List.mem_cons_self hreq rfl)) helse
      elseBody.le
      (ihe (hr.at_next hif (List.mem_cons_of_mem _ (List.mem_singleton_self _)) hreq rfl)) hend
      rest.le
  | @loop x e e₁ lo m hi h j bs bs₁ hloop body hback hend hleaves hexit rest ihb ihr =>
    have hbody : FlowReaches chunk.ops heightEff 0 (lo + 1) h :=
      hr.at_next hloop (List.mem_singleton_self _) (Nat.zero_le h) rfl
    obtain ⟨b, hb⟩ := List.exists_mem_of_ne_nil bs₁ hleaves
    have hout := (body.flows hbody).2 (m + 1) rfl b hb
    obtain rfl := hexit b hb
    exact .loop hloop body.le (ihb hbody) hback hend hleaves hexit (hn lo _ h b hloop hr hout)
      rest.le (ihr hout)
  | loopStays hloop body hback hend rest ihb =>
    exact .loopStays hloop body.le
      (ihb (hr.at_next hloop (List.mem_singleton_self _) (Nat.zero_le _) rfl)) hback hend rest.le

/-! ## Chunks -/

/-- A `loop fn` begins with `Stream`, and a sequence of blocks lies between it and its `Reset`. -/
def IterationWhole (c : Chunk) : Prop :=
  c.blockType = .stream →
    c.ops[0]? = some .stream ∧ ∃ p, c.ops[p]? = some .reset ∧ Region Eq c.ops none 1 p

/-- Every instruction that control can come to fits below a height. -/
def ChunkFits (c : Chunk) (slots : ℕ → ℤ) (top : ℤ) : Prop :=
  ∀ ip h, FlowReaches c.ops heightEff 0 ip h → GoodAt c.ops (fun _ => Fits slots top) (ip, h)

/-- What the analysis of a chunk walks over and finds. -/
theorem computeChunkWcmu_ok {c : Chunk} {text : TextAnalysis} {rt : ℕ → Bool} {bytes : ℕ × ℕ}
    {t : Bool} (h : computeChunkWcmu text c r rt vsb = .ok (bytes, t)) :
    ∃ start stop body, wcmuRange c = .ok (start, stop) ∧ wcmuRegion c r vsb start stop = .ok body ∧
      bytes.1 = (c.localCount + body.peakAboveInitial) * vsb ∧ bytes.1 ≤ u32Max := by
  obtain ⟨⟨start, stop⟩, hrange, h⟩ := bind_eq_ok h
  obtain ⟨_, -, h⟩ := bind_eq_ok h
  obtain ⟨body, hbody, h⟩ := bind_eq_ok h
  obtain ⟨slots, hslots, h⟩ := bind_eq_ok h
  obtain ⟨stackBytes, hbytes, h⟩ := bind_eq_ok h
  have hle : stackBytes ≤ u32Max := by
    unfold u32 at hbytes
    split at hbytes
    next hle => exact Except.ok.inj hbytes ▸ hle
    · cases hbytes
  obtain rfl := u32_ok hslots
  obtain rfl := u32_ok hbytes
  cases h
  exact ⟨start, stop, body, hrange, hbody, rfl, hle⟩

theorem asI32_of_lt {n : ℕ} (h : n < 2 ^ 31) : asI32 n = n := by
  unfold asI32
  rw [Int.bmod_eq_of_le (by omega) (by omega)]

section Accepted

variable {md : Module} {i : ℕ} {c : Chunk} (hv : verify md = .ok ()) (hc : md.chunks[i]? = some c)
  (hm : ElseMatched c.ops) (hn : LoopsNeutral c.ops)
include hv hc hm hn

/-- The peak over all of a chunk covers what control can come to. -/
theorem wcmuRegion_fits {o : McuOutcome} (h : wcmuRegion c r vsb 0 c.ops.length = .ok o) :
    ChunkFits c (r.slots vsb) o.peakAboveInitial := by
  obtain ⟨⟨o', breaks⟩, hwalk, h⟩ := bind_eq_ok h
  cases h
  obtain ⟨e, bs, hb⟩ := accepted_balanced hv hc hm
  have hspans := hb.spanned hn .refl _ _ _ _ _ 0 (le_refl 0) (le_refl 0) hwalk
  intro ip h hr
  obtain ⟨op, hop, -⟩ := accepted_heights hv hc hm hr
  rcases (hspans.fits _ (zero_add _).le).reaches rfl hr with hgood | ⟨heq, -⟩
  · exact hgood
  · exact absurd heq (List.getElem?_eq_some_iff.mp hop).1.ne

/-- The peak between `Stream` and `Reset` covers what control can come to. -/
theorem wcmuRegion_fits_stream {p : ℕ} {o : McuOutcome} (hs : c.ops[0]? = some .stream)
    (hp : c.ops[p]? = some .reset) (hregion : Region Eq c.ops none 1 p)
    (h : wcmuRegion c r vsb 1 p = .ok o) : ChunkFits c (r.slots vsb) o.peakAboveInitial := by
  obtain ⟨⟨o', breaks⟩, hwalk, h⟩ := bind_eq_ok h
  cases h
  obtain ⟨e, bs, hb⟩ := accepted_balanced hv hc hm
  have hlen := (List.getElem?_eq_some_iff.mp hp).1
  obtain ⟨e', bs', hfront⟩ := hb.front (.leaf hs rfl hregion) hlen.le
  have hstart : FlowReaches c.ops heightEff 0 1 0 :=
    FlowReaches.at_next .refl hs (List.mem_singleton_self 1) (le_refl 0) rfl
  have hlt := hregion.le
  have hinner := hfront.tail hlt hs rfl (List.cons_ne_nil _ _)
  have hspans := hinner.spanned hn hstart _ _ _ _ _ 0 (le_refl 0) (le_refl 0) hwalk
  have hgrows := wcmuRegionAt_grows (s := ⟨0, 0, 0⟩) (le_refl 0) hwalk
  have hstream : Fits (r.slots vsb) (o.peakAboveInitial : ℤ) .stream 0 :=
    ⟨le_refl 0, Int.natCast_nonneg _, by rintro _ _ ⟨⟩⟩
  have hreset : OpTriple heightEff (Fits (r.slots vsb) (o.peakAboveInitial : ℤ)) .reset
      {h | h ∈ e'} Set.univ := by
    intro h hh
    obtain ⟨d, hd, hle⟩ := hspans.ends h hh
    have := hgrows.delta d hd
    dsimp only at this
    refine ⟨⟨Nat.zero_le h, ?_, by rintro _ _ ⟨⟩⟩, fun _ _ => trivial⟩
    show (h : ℤ) + ((0 : ℕ) : ℤ) ≤ _
    omega
  have hwhole : RegionTriple c.ops heightEff (fun _ => Fits (r.slots vsb) (o.peakAboveInitial : ℤ)) none 0
      c.ops.length {0} ∅ {b | b ∈ bs'} :=
    .leaf hs (fun _ => next_leaf rfl) (hstream.triple rfl)
      ((hspans.fits _ (zero_add _).le).seq (.halt hp rfl hreset))
  intro ip h hr
  rcases hwhole.reaches rfl hr with hgood | ⟨-, hmem⟩
  · exact hgood
  · exact hmem.elim

omit hn in
/-- The part of a chunk that the analysis walks over is a sequence of blocks. -/
theorem wcmuRange_region (hw : IterationWhole c) {start stop : ℕ}
    (h : wcmuRange c = .ok (start, stop)) :
    Region Eq c.ops none start stop ∧ stop ≤ c.ops.length ∧
      (start = 0 ∧ stop = c.ops.length ∨
        start = 1 ∧ c.ops[0]? = some .stream ∧ c.ops[stop]? = some .reset) := by
  have ha := verify_chunkAccepted hv (List.mem_of_getElem? hc)
  have hwhole : Region Eq c.ops none 0 c.ops.length := (checkNesting_region ha.nesting).matched hm
  unfold wcmuRange at h
  split at h
  next hb =>
    obtain ⟨hs, p, hp, hregion⟩ := hw hb
    cases hfs : c.ops.findIdx? (· == .stream) with
    | none =>
      rw [hfs] at h
      cases h
    | some q =>
      cases hfr : c.ops.findIdx? (· == .reset) with
      | none =>
        rw [hfs, hfr] at h
        cases h
      | some q' =>
        rw [hfs, hfr] at h
        cases h
        obtain rfl : q = 0 := ha.stream_unique (findIdx?_getElem? hfs) hs
        have hcount := (ha.markers (.inr (List.mem_of_getElem? hp))).2.2
        obtain rfl := position_unique hcount (findIdx?_getElem? hfr) hp
        exact ⟨hregion, (List.getElem?_eq_some_iff.mp hp).1.le, .inr ⟨rfl, hs, hp⟩⟩
  next =>
    cases h
    exact ⟨hwhole, le_rfl, .inl ⟨rfl, rfl⟩⟩
  next =>
    cases h
    exact ⟨hwhole, le_rfl, .inl ⟨rfl, rfl⟩⟩

/-- **What the analysis finds of a chunk covers what control can come to in it.** -/
theorem computeChunkWcmu_fits (hw : IterationWhole c) {text : TextAnalysis} {rt : ℕ → Bool}
    {bytes : ℕ × ℕ} {t : Bool} (h : computeChunkWcmu text c r rt vsb = .ok (bytes, t)) :
    ∃ peak : ℕ, bytes.1 = (c.localCount + peak) * vsb ∧ bytes.1 ≤ u32Max ∧
      ChunkFits c (r.slots vsb) peak := by
  obtain ⟨start, stop, body, hrange, hbody, hbytes, hle⟩ := computeChunkWcmu_ok h
  refine ⟨body.peakAboveInitial, hbytes, hle, ?_⟩
  obtain ⟨hregion, -, ⟨rfl, rfl⟩ | ⟨rfl, hs, hp⟩⟩ := wcmuRange_region hv hc hm hw hrange
  · exact wcmuRegion_fits hv hc hm hn hbody
  · exact wcmuRegion_fits_stream hv hc hm hn hs hp hregion hbody

end Accepted

end Keleusma
