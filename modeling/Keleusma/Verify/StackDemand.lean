import Mathlib.Algebra.BigOperators.Intervals
import Mathlib.Algebra.Order.BigOperators.Group.Finset
import Keleusma.Verify.WorstMemorySound

/-!
# What a module can push

The walk over a region finds no more slots than the instructions of the region can push together,
above those of the deepest chunk that they call (`wcmuRegionAt_capped`). So the slots of a chunk are
within what the instructions of all chunks of the module can push (`Module.stackDemand`), a number
that the module can be read for.
-/

namespace Keleusma

variable {chunk : Chunk} {r : CallResolver} {vsb fuel lo m hi nest : ℕ} {s : McuState}
  {breaks : List McuResult} {op : Op} {o : McuOutcome × List McuResult} {x : Option ℕ} {ops : List Op}

/-! ## Instructions -/

/-- What the instruction at a position can push. -/
def growthAt (ops : List Op) (p : ℕ) : ℕ := (ops[p]?).elim 0 Op.stackGrowth

/-- What the instructions of a part of a chunk can push together. -/
def pushes (ops : List Op) (lo hi : ℕ) : ℕ := ∑ p ∈ Finset.Ico lo hi, growthAt ops p

/-- The slots that the frame of a chunk can fill: its locals and what its instructions can push. -/
def Chunk.stackDemand (c : Chunk) : ℕ := c.localCount + pushes c.ops 0 c.ops.length

/-- The slots that one frame of each chunk can fill. -/
def Module.stackDemand (m : Module) : ℕ := (m.chunks.map Chunk.stackDemand).sum

theorem pushes_first (hlt : lo < hi) (hop : ops[lo]? = some op) :
    pushes ops lo hi = op.stackGrowth + pushes ops (lo + 1) hi := by
  rw [pushes, Finset.sum_eq_sum_Ico_succ_bot hlt, growthAt, hop]
  rfl

theorem pushes_split (ops : List Op) (hlo : lo ≤ m) (hhi : m ≤ hi) :
    pushes ops lo hi = pushes ops lo m + pushes ops m hi :=
  (Finset.sum_Ico_consecutive _ hlo hhi).symm

theorem pushes_mono (ops : List Op) {lo' hi' : ℕ} (hlo : lo' ≤ lo) (hhi : hi ≤ hi') :
    pushes ops lo hi ≤ pushes ops lo' hi' :=
  Finset.sum_le_sum_of_subset (Finset.Ico_subset_Ico hlo hhi)

/-! ## Regions -/

/-- The walk has found no peak above one number and no offset above another. -/
structure Capped (P D : ℕ) (o : McuOutcome × List McuResult) : Prop where
  peak : o.1.peakAboveInitial ≤ P
  breaks : ∀ b ∈ o.2, b.peakAboveInitial ≤ P
  delta : ∀ d ∈ o.1.delta, d ≤ (D : ℤ)

theorem Capped.mono {P D D' : ℕ} (h : Capped P D o) (hD : D ≤ D') : Capped P D' o :=
  ⟨h.peak, h.breaks, fun d hd => (h.delta d hd).trans (by exact_mod_cast hD)⟩

/-- A region inside, from the start of the one around. -/
theorem Capped.inside {walk : McuWalk} {offset : ℤ} {P D : ℕ}
    (hbreaks : ∀ b ∈ breaks, b.peakAboveInitial ≤ P) (hoff : offset.toNat ≤ P)
    (hbody : ∀ o', walk lo hi ⟨0, 0, 0⟩ [] (nest + 1) = .ok o' → Capped (P - offset.toNat) D o')
    (h : wcmuSubregion walk lo hi offset breaks nest = .ok o) : Capped P (offset.toNat + D) o := by
  obtain ⟨o', hwalk, hpeak, hdelta, lifted, heq, hlifted⟩ := wcmuSubregion_ok h
  have hcapped := hbody o' hwalk
  refine ⟨?_, fun b hb => ?_, fun d hd => ?_⟩
  · have := hcapped.peak
    omega
  · rw [heq] at hb
    rcases List.mem_append.mp hb with hb | hb
    · exact hbreaks b hb
    · have hlift : b.peakAboveInitial ∈ lifted.map (·.peakAboveInitial) := List.mem_map_of_mem hb
      rw [hlifted] at hlift
      obtain ⟨b', hb', heq'⟩ := List.mem_map.mp hlift
      have := hcapped.breaks b' hb'
      omega
  · rw [hdelta] at hd
    obtain ⟨d', hd', rfl⟩ := Option.map_eq_some_iff.mp hd
    have := hcapped.delta d' hd'
    have := Int.self_le_toNat offset
    push_cast
    omega

section Region

variable {M : ℕ} (hcalls : ∀ callee n, Op.call callee n ∈ chunk.ops → r.slots vsb callee ≤ M)
include hcalls

omit hcalls in
/-- The walk takes account of an instruction within what it can push. -/
theorem Charged.capped {s' : McuState} {P : ℕ} (hs : Charged (r.slots vsb) op s s')
    (hcall : ∀ callee n, op = .call callee n → r.slots vsb callee ≤ M) (hpeak : s.peak ≤ P)
    (hP : s.offset.toNat + op.stackGrowth + M ≤ P) :
    s'.peak ≤ P ∧ s'.offset.toNat ≤ s.offset.toNat + op.stackGrowth := by
  have hoff := hs.offset
  have hnet := opNet_eq op
  have hcap := hs.cap M hcall
  omega

/-- **The walk over a region stays within what its instructions can push**, above the deepest chunk
that they call. -/
theorem wcmuRegionAt_capped (hr : Region Eq chunk.ops x lo hi) {P : ℕ} (hpeak : s.peak ≤ P)
    (hbreaks : ∀ b ∈ breaks, b.peakAboveInitial ≤ P)
    (hP : s.offset.toNat + pushes chunk.ops lo hi + M ≤ P)
    (h : wcmuRegionAt chunk r vsb fuel lo hi s breaks nest = .ok o) :
    Capped P (s.offset.toNat + pushes chunk.ops lo hi) o := by
  have hat {p : ℕ} {op : Op} (hop : chunk.ops[p]? = some op) (callee n : ℕ)
      (heq : op = .call callee n) : r.slots vsb callee ≤ M :=
    hcalls callee n (heq ▸ List.mem_of_getElem? hop)
  induction hr generalizing fuel s breaks nest o P with
  | @nil x lo =>
    rcases wcmuRegionAt_ok h with ⟨-, rfl⟩ | ⟨f, op, -, hlt, -⟩
    · refine ⟨hpeak, hbreaks, fun d hd => ?_⟩
      obtain rfl := Option.some.inj hd
      exact (Int.self_le_toNat _).trans (by exact_mod_cast Nat.le_add_right _ _)
    · exact absurd hlt (lt_irrefl lo)
  | @leaf x lo hi op hop hd rest ih =>
    have hlt : lo < hi := rest.le
    have hfirst := pushes_first hlt hop
    obtain ⟨f, h⟩ := wcmuRegionAt_op h hlt hop
    obtain ⟨s', hs, hnext⟩ := wcmuOp_leaf hd h
    obtain ⟨hpeak', hoff⟩ := hs.capped (hat hop) hpeak (by omega)
    rcases hnext with ⟨-, rfl⟩ | h
    · exact ⟨hpeak', hbreaks, by rintro _ ⟨⟩⟩
    · exact (ih hpeak' hbreaks (by omega) h).mono (by omega)
  | @«break» k lo hi hop rest ih =>
    have hlt : lo < hi := rest.le
    have hfirst := pushes_first hlt hop
    obtain ⟨f, h⟩ := wcmuRegionAt_op h hlt hop
    obtain ⟨s', hs, rfl⟩ := wcmuOp_break h
    obtain ⟨hpeak', -⟩ := hs.capped (hat hop) hpeak (by omega)
    exact ⟨hpeak', List.forall_mem_append.mpr ⟨hbreaks, List.forall_mem_singleton.mpr hpeak'⟩,
      by rintro _ ⟨⟩⟩
  | @breakIf k lo hi hop rest ih =>
    have hlt : lo < hi := rest.le
    have hfirst := pushes_first hlt hop
    obtain ⟨f, h⟩ := wcmuRegionAt_op h hlt hop
    obtain ⟨s', hs, h⟩ := wcmuOp_breakIf h
    obtain ⟨hpeak', hoff⟩ := hs.capped (hat hop) hpeak (by omega)
    exact (ih hpeak' (List.forall_mem_append.mpr ⟨hbreaks, List.forall_mem_singleton.mpr hpeak'⟩)
      (by omega) h).mono (by omega)
  | @ifThen x lo m hi hif body hend rest ihb ihr =>
    have hbody := body.le
    have hrest : m < hi := rest.le
    have hfirst := pushes_first (show lo < hi by omega) hif
    have hsplit := pushes_split chunk.ops hbody hrest.le
    have hmeet := pushes_first hrest hend
    obtain ⟨f, h⟩ := wcmuRegionAt_op h (show lo < hi by omega) hif
    obtain ⟨s₁, b, s₂, hs, hb, -, -, hpeak₂, -, hoff₂, h⟩ :=
      wcmuOp_ifThen (body.elseBefore_none hif) h
    obtain ⟨hpeak₁, hoff₁⟩ := hs.capped (hat hif) hpeak (by omega)
    have hcapped : Capped P (s₁.offset.toNat + pushes chunk.ops (lo + 1) m) b :=
      .inside hbreaks (by omega) (fun o' hwalk => (ihb (Nat.zero_le _) (List.forall_mem_nil _)
        (by rw [Int.toNat_zero]; omega) hwalk).mono (by rw [Int.toNat_zero, Nat.zero_add])) hb
    have hoff : s₂.offset.toNat ≤ s₁.offset.toNat + pushes chunk.ops (lo + 1) m := by
      rcases hoff₂ with heq | hmem
      · omega
      · have := hcapped.delta _ hmem
        omega
    have hpeak' := hcapped.peak
    exact (ihr (by omega) hcapped.breaks (by omega) h).mono (by omega)
  | @ifElse x lo m t m' hi hif thenBody helse hown elseBody hend rest iht ihe ihr =>
    obtain rfl : t = m' := hown
    have hthen := thenBody.le
    have helse' := elseBody.le
    have hrest : t < hi := rest.le
    have hfirst := pushes_first (show lo < hi by omega) hif
    have hsplit := pushes_split chunk.ops hthen (show m ≤ hi by omega)
    have hskip := pushes_first (show m < hi by omega) helse
    have hsplit' := pushes_split chunk.ops helse' hrest.le
    have hmeet := pushes_first hrest hend
    obtain ⟨f, h⟩ := wcmuRegionAt_op h (show lo < hi by omega) hif
    obtain ⟨s₁, b₁, b₂, s₂, hs, hb₁, hb₂, -, -, -, hpeak₂, h⟩ :=
      wcmuOp_ifElse (elseBefore_some helse) h
    obtain ⟨hpeak₁, hoff₁⟩ := hs.capped (hat hif) hpeak (by omega)
    have hcapped₁ : Capped P (s₁.offset.toNat + pushes chunk.ops (lo + 1) m) b₁ :=
      .inside hbreaks (by omega) (fun o' hwalk => (iht (Nat.zero_le _) (List.forall_mem_nil _)
        (by rw [Int.toNat_zero]; omega) hwalk).mono (by rw [Int.toNat_zero, Nat.zero_add])) hb₁
    have hcapped₂ : Capped P (s₁.offset.toNat + pushes chunk.ops (m + 1) t) b₂ :=
      .inside hcapped₁.breaks (by omega) (fun o' hwalk => (ihe (Nat.zero_le _)
        (List.forall_mem_nil _) (by rw [Int.toNat_zero]; omega) hwalk).mono
          (by rw [Int.toNat_zero, Nat.zero_add])) hb₂
    have hpeak' := hcapped₁.peak
    have hpeak'' := hcapped₂.peak
    rcases h with ⟨-, -, rfl⟩ | ⟨-, hoff₂, h⟩
    · exact ⟨show s₂.peak ≤ P by omega, hcapped₂.breaks, by rintro _ ⟨⟩⟩
    · have hoff : s₂.offset.toNat ≤
          s₁.offset.toNat + pushes chunk.ops (lo + 1) m + pushes chunk.ops (m + 1) t := by
        rcases hoff₂ with hmem | hmem
        · have := hcapped₁.delta _ hmem
          omega
        · have := hcapped₂.delta _ hmem
          omega
      exact (ihr (by omega) hcapped₂.breaks (by omega) h).mono (by omega)
  | @loop x lo m hi hloop body hend rest ihb ihr =>
    have hbody := body.le
    have hrest : m < hi := rest.le
    have hfirst := pushes_first (show lo < hi by omega) hloop
    have hsplit := pushes_split chunk.ops hbody hrest.le
    have hturn := pushes_first hrest hend
    obtain ⟨f, h⟩ := wcmuRegionAt_op h (show lo < hi by omega) hloop
    obtain ⟨s₁, b, s₂, hs, hb, hoff₂, -, -, hpeak₂, h⟩ := wcmuOp_loop h
    obtain ⟨hpeak₁, hoff₁⟩ := hs.capped (hat hloop) hpeak (by omega)
    have hcapped : Capped P (s₁.offset.toNat + pushes chunk.ops (lo + 1) m) b :=
      .inside (List.forall_mem_nil _) (by omega) (fun o' hwalk => (ihb (Nat.zero_le _)
        (List.forall_mem_nil _) (by rw [Int.toNat_zero]; omega) hwalk).mono
          (by rw [Int.toNat_zero, Nat.zero_add])) hb
    have hpeak' : s₂.peak ≤ P := hpeak₂ P hpeak₁ hcapped.peak hcapped.breaks
    rcases h with ⟨-, rfl⟩ | h
    · exact ⟨hpeak', hbreaks, by rintro _ ⟨⟩⟩
    · exact (ihr hpeak' hbreaks (by omega) h).mono (by omega)

/-- The slots of a chunk are within what it can push, above the deepest chunk that it calls. -/
theorem computeChunkWcmu_demand {md : Module} {i : ℕ} (hv : verify md = .ok ())
    (hc : md.chunks[i]? = some chunk) (hm : ElseMatched chunk.ops) (hw : IterationWhole chunk)
    {text : TextAnalysis} {rt : ℕ → Bool} {bytes : ℕ × ℕ} {t : Bool}
    (h : computeChunkWcmu text chunk r rt vsb = .ok (bytes, t)) :
    bytes.1 ≤ (chunk.stackDemand + M) * vsb := by
  obtain ⟨start, stop, body, hrange, hbody, hbytes, -⟩ := computeChunkWcmu_ok h
  obtain ⟨hregion, hlen, -⟩ := wcmuRange_region hv hc hm hw hrange
  obtain ⟨⟨o, breaks⟩, hwalk, hbody⟩ := bind_eq_ok hbody
  cases hbody
  have hpeak := (wcmuRegionAt_capped hcalls hregion (Nat.zero_le _) (List.forall_mem_nil _) le_rfl
    hwalk).peak
  have hle := pushes_mono chunk.ops (Nat.zero_le start) hlen
  rw [Int.toNat_zero, Nat.zero_add] at hpeak
  rw [hbytes, Chunk.stackDemand]
  refine Nat.mul_le_mul_right vsb ?_
  dsimp only at hpeak
  omega

end Region

/-! ## Modules -/

/-- Numbers of chunks, each within a demand of its own above those of the chunks that it calls, are
within the demands together. -/
theorem demand_covers {m : Module} {order : List ℕ} (hpost : PostOrder (Calls m) order)
    {slots demand : ℕ → ℕ} {cap : ℕ} (hcap : (order.map demand).sum < cap)
    (hslots : ∀ i ∈ order, ∀ M < cap, (∀ j, Calls m i j → slots j ≤ M) → slots i ≤ demand i + M) :
    ∀ i ∈ order, slots i ≤ (order.map demand).sum := by
  induction order using List.reverseRecOn with
  | nil => exact List.forall_mem_nil _
  | append_singleton order idx ih =>
    rw [List.map_append, List.sum_append, List.map_singleton, List.sum_singleton] at hcap ⊢
    have hbefore := ih hpost.of_append (by omega) fun i hi => hslots i (List.mem_append_left _ hi)
    refine List.forall_mem_append.mpr ⟨fun i hi => ?_, List.forall_mem_singleton.mpr ?_⟩
    · exact (hbefore i hi).trans (Nat.le_add_right _ _)
    · rw [Nat.add_comm]
      exact hslots idx (List.mem_append_right _ (List.mem_singleton_self idx)) _ (by omega)
        fun j hj => hbefore j (hpost order idx [] rfl j hj)

end Keleusma
