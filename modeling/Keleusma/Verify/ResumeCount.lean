import Keleusma.Logic.Marking
import Keleusma.Verify.CallOrder
import Keleusma.Verify.WorstCaseSound

/-!
# The number of resumes

How many values the host delivers to a chunk between one reset and the next, which is the number of
yields that are executed. The walk of the time bound counts them, with a price of one for a `Yield`
and nothing for all else; a call counts for all that its callee does. Only the chunks that may yield
and that calls lead to are counted, callees first. `maxResumesBeforeReset_report` says what the
result rests on.
-/

namespace Keleusma

open Saturating (u32Max)

/-! ## The count of a region -/

/-- The price of an instruction when yields are counted. -/
def yieldCountCycles : Op → ℕ
  | .yield => 1
  | _ => 0

/-- The cost model that counts yields. -/
def yieldCountModel : CostModel := ⟨yieldCountCycles⟩

/-- What a call adds to the count. The greatest value is reserved for text without a bound. -/
def calleeCount (counts : List ℕ) (ip : ℕ) : Op → Except CostFault ℕ
  | .call callee _ =>
    match counts[callee]? with
    | some n => .ok (min n (u32Max - 1))
    | none => .error (.unknownCallee ip callee)
  | _ => .ok 0

/-- What the instructions of a chunk add to the count. -/
def calleeCounts (counts : List ℕ) : ℕ → List Op → Except CostFault (List ℕ)
  | _, [] => .ok []
  | ip, op :: ops => do
    let n ← calleeCount counts ip op
    let extra ← calleeCounts counts (ip + 1) ops
    return n :: extra

/-- The greatest number of yields on a path through a region, with what the callees execute. -/
def regionYieldCount (chunk : Chunk) (start stop : ℕ) (counts : List ℕ) : Except CostFault ℕ := do
  structurally (checkForwardControlFlowTargets chunk)
  let extra ← calleeCounts counts 0 chunk.ops
  wcetRegion chunk yieldCountModel false extra start stop

/-! ## The chunks of a module -/

/-- Whether a chunk calls one of the marked chunks. -/
def callsMarked (m : Module) (marked : List ℕ) (i : ℕ) : Bool :=
  (m.ops i).any fun op => match op with
    | .call callee _ => decide (callee ∈ marked)
    | _ => false

/-- The chunks that yield, or call one that may. -/
def mayYield (m : Module) : List ℕ :=
  Marking.rounds (callsMarked m) (List.range m.chunks.length) (m.chunks.length + 1)
    ((List.range m.chunks.length).filter fun i => (m.ops i).any (· == .yield))

/-- The chunk that an instruction calls. -/
def callee? (m : Module) : Op → Option ℕ
  | .call callee _ => if callee < m.chunks.length then some callee else none
  | _ => none

/-- The chunks that calls lead to. -/
def reachableFrom (m : Module) (idx : ℕ) : List ℕ :=
  Marking.search (fun i => (m.ops i).filterMap (callee? m)) m.chunks.length [idx] [idx]

/-- Whether the callees of a chunk have been counted. -/
def calleesCounted (counts : List (Option ℕ)) (chunk : Chunk) : Bool :=
  chunk.ops.all fun op => match op with
    | .call callee _ => (counts[callee]?).all Option.isSome
    | _ => true

/-- The counts so far, with 0 for what has not been counted. -/
def knownCounts (counts : List (Option ℕ)) : List ℕ := counts.map (·.getD 0)

/-- Count a chunk, if it has not been counted and its callees have. -/
def countChunk (m : Module) (s : List (Option ℕ) × Bool) (i : ℕ) :
    Except CostFault (List (Option ℕ) × Bool) :=
  match s.1[i]?, m.chunks[i]? with
  | some none, some chunk =>
    if calleesCounted s.1 chunk then do
      let n ← regionYieldCount chunk 0 chunk.ops.length (knownCounts s.1)
      return (s.1.set i (some n), true)
    else return s
  | _, _ => return s

/-- Rounds over the chunks until none is counted. -/
def countRounds (m : Module) : ℕ → List (Option ℕ) → Except CostFault (List (Option ℕ))
  | 0, counts => return counts
  | fuel + 1, counts => do
    let (counts, progressed) ← (List.range m.chunks.length).foldlM (countChunk m) (counts, false)
    if progressed then countRounds m fuel counts else return counts

/-- The counts before the first round: 0 for the chunks that need not be counted. -/
def startCounts (m : Module) (idx : ℕ) : List (Option ℕ) :=
  (List.range m.chunks.length).map fun i =>
    if i ∈ mayYield m ∧ i ∈ reachableFrom m idx then none else some 0

/-- The greatest number of values that the host delivers to a chunk between two resets, or in a
whole call. -/
def maxResumesBeforeReset (m : Module) (idx : ℕ) : Except CostFault ℕ := do
  let some chunk := m.chunks[idx]? | throw (.chunkOutOfRange idx m.chunks.length)
  if idx ∉ mayYield m then return 0
  let counts ← countRounds m (m.chunks.length + 1) (startCounts m idx)
  if counts.any Option.isNone then throw .callCycle
  if chunk.blockType = .stream then
    let some resetPos := chunk.ops.findIdx? (· == .reset) | throw .noReset
    regionYieldCount chunk 0 resetPos (knownCounts counts)
  else return (knownCounts counts).getD idx 0

/-! ## What a region counts -/

/-- What executing an instruction adds to the number of yields. -/
def yieldPrice (known : List ℕ) : Op → ℕ
  | .yield => 1
  | .call callee _ => min (known.getD callee 0) (u32Max - 1)
  | _ => 0

/-- What executing the instruction at a position adds to the number of yields. -/
def yieldPriceAt (known : List ℕ) (ops : List Op) (p : ℕ) : ℕ := (ops[p]?).elim 0 (yieldPrice known)

variable {m : Module} {chunk : Chunk} {known : List ℕ} {lo hi n ip : ℕ} {es : List ℕ}

theorem calleeCount_price {op : Op} (h : calleeCount known ip op = .ok n) :
    yieldCountCycles op + n = yieldPrice known op := by
  cases op with
  | call callee args =>
    rw [calleeCount] at h
    cases hk : known[callee]? with
    | none =>
      rw [hk] at h
      cases h
    | some k =>
      rw [hk] at h
      cases h
      rw [yieldPrice, List.getD_eq_getElem?_getD, hk]
      exact Nat.zero_add _
  | _ => cases h; rfl

theorem calleeCounts_price {ops : List Op} {extra : List ℕ}
    (h : calleeCounts known ip ops = .ok extra) (p : ℕ) :
    (ops[p]?).elim 0 yieldCountCycles + extra.getD p 0 = yieldPriceAt known ops p := by
  induction ops generalizing ip extra p with
  | nil =>
    cases h
    rfl
  | cons op ops ih =>
    obtain ⟨k, hk, h⟩ := bind_eq_ok h
    obtain ⟨extra, hextra, h⟩ := bind_eq_ok h
    cases h
    cases p with
    | zero => exact calleeCount_price hk
    | succ p => exact ih hextra p

/-- The counts of other chunks than the callees are of no account. -/
theorem calleeCounts_congr {ops : List Op} {known' : List ℕ}
    (h : ∀ callee args, Op.call callee args ∈ ops → known'[callee]? = known[callee]?) :
    calleeCounts known' ip ops = calleeCounts known ip ops := by
  induction ops generalizing ip with
  | nil => rfl
  | cons op ops ih =>
    have hop : calleeCount known' ip op = calleeCount known ip op := by
      cases op with
      | call callee args => rw [calleeCount, calleeCount, h callee args List.mem_cons_self]
      | _ => rfl
    rw [calleeCounts, calleeCounts, hop,
      ih fun callee args hmem => h callee args (List.mem_cons_of_mem _ hmem)]

theorem regionYieldCount_congr {known' : List ℕ}
    (h : ∀ callee args, Op.call callee args ∈ chunk.ops → known'[callee]? = known[callee]?) :
    regionYieldCount chunk lo hi known' = regionYieldCount chunk lo hi known := by
  rw [regionYieldCount, regionYieldCount, calleeCounts_congr h]

/-- The count of a region covers every path through it. -/
theorem regionYieldCount_covers (hr : Region Eq chunk.ops none lo hi)
    (h : regionYieldCount chunk lo hi known = .ok n) (htrail : Trail chunk.ops lo es)
    (hes : ∀ p ∈ es, p < hi)
    (hkeeps : KeepsBounds chunk.ops (extractLoopIterationBound chunk) es) :
    Saturating.Covers u32Max n (weight (yieldPriceAt known chunk.ops) es) := by
  obtain ⟨_, -, h⟩ := bind_eq_ok h
  obtain ⟨extra, hextra, h⟩ := bind_eq_ok h
  have hprice : priceAt chunk yieldCountModel extra = yieldPriceAt known chunk.ops :=
    funext (calleeCounts_price hextra)
  exact hprice ▸ wcetRegion_covers hr h htrail hes hkeeps

/-! ## What is counted -/

/-- The chunks that are counted. -/
def ToCount (m : Module) (idx i : ℕ) : Prop := i ∈ mayYield m ∧ i ∈ reachableFrom m idx

/-- The counts so far: every one that is there is the count of its chunk, or 0 where nothing is to
be counted. -/
structure CountsOk (m : Module) (idx : ℕ) (counts : List (Option ℕ)) : Prop where
  length : counts.length = m.chunks.length
  counted : ∀ i n, counts[i]? = some (some n) → ToCount m idx i → ∃ c, m.chunks[i]? = some c ∧
    calleesCounted counts c = true ∧
    regionYieldCount c 0 c.ops.length (knownCounts counts) = .ok n
  zero : ∀ i n, counts[i]? = some n → ¬ToCount m idx i → n = some 0

/-- A callee of a chunk whose callees have been counted. -/
theorem calleesCounted_callee {counts : List (Option ℕ)} (h : calleesCounted counts chunk = true)
    {callee args : ℕ} (hop : Op.call callee args ∈ chunk.ops) : counts[callee]? ≠ some none := by
  intro hnone
  have hcallee := List.all_eq_true.mp h _ hop
  dsimp only at hcallee
  rw [hnone] at hcallee
  cases hcallee

variable {idx i : ℕ} {counts counts' : List (Option ℕ)}

theorem startCounts_getElem? {k : Option ℕ} (h : (startCounts m idx)[i]? = some k) :
    (ToCount m idx i → k = none) ∧ (¬ToCount m idx i → k = some 0) := by
  rw [startCounts, List.getElem?_map] at h
  obtain ⟨j, hj, rfl⟩ := Option.map_eq_some_iff.mp h
  obtain ⟨hlt, rfl⟩ := List.getElem?_eq_some_iff.mp hj
  rw [List.getElem_range]
  exact ⟨fun hi => if_pos hi, fun hi => if_neg hi⟩

theorem CountsOk.start : CountsOk m idx (startCounts m idx) where
  length := by rw [startCounts, List.length_map, List.length_range]
  counted i n h hi := by cases (startCounts_getElem? h).1 hi
  zero i n h hi := (startCounts_getElem? h).2 hi

/-- A chunk whose callees have been counted is counted. -/
theorem CountsOk.set (h : CountsOk m idx counts) (hi : counts[i]? = some none)
    (hchunk : m.chunks[i]? = some chunk) (hready : calleesCounted counts chunk = true)
    (hn : regionYieldCount chunk 0 chunk.ops.length (knownCounts counts) = .ok n) :
    CountsOk m idx (counts.set i (some n)) := by
  have hlt : i < counts.length := (List.getElem?_eq_some_iff.mp hi).1
  -- the counts of the callees stay as they are
  have hkept {c : Chunk} (hc : calleesCounted counts c = true) :
      calleesCounted (counts.set i (some n)) c = true ∧
      regionYieldCount c 0 c.ops.length (knownCounts (counts.set i (some n))) =
        regionYieldCount c 0 c.ops.length (knownCounts counts) := by
    have hne {callee args : ℕ} (hop : Op.call callee args ∈ c.ops) : i ≠ callee := by
      rintro rfl
      exact calleesCounted_callee hc hop hi
    refine ⟨List.all_eq_true.mpr fun op hop => ?_, regionYieldCount_congr fun callee args hop => ?_⟩
    · have hall := List.all_eq_true.mp hc op hop
      cases op with
      | call callee args =>
        dsimp only at hall ⊢
        rwa [List.getElem?_set_ne (hne hop)]
      | _ => rfl
    · rw [knownCounts, knownCounts, List.getElem?_map, List.getElem?_map,
        List.getElem?_set_ne (hne hop)]
  refine ⟨by rw [List.length_set, h.length], fun j k hj hcount => ?_, fun j k hj hnot => ?_⟩
  · by_cases hji : i = j
    · subst hji
      rw [List.getElem?_set_self hlt] at hj
      cases hj
      obtain ⟨hready', heq⟩ := hkept hready
      exact ⟨chunk, hchunk, hready', heq.trans hn⟩
    · rw [List.getElem?_set_ne hji] at hj
      obtain ⟨c, hc, hready', hk⟩ := h.counted j k hj hcount
      obtain ⟨hready'', heq⟩ := hkept hready'
      exact ⟨c, hc, hready'', heq.trans hk⟩
  · have hji : i ≠ j := by
      rintro rfl
      cases h.zero i none hi hnot
    rw [List.getElem?_set_ne hji] at hj
    exact h.zero j k hj hnot

theorem CountsOk.countChunk {b b' : Bool} (h : CountsOk m idx counts)
    (hs : countChunk m (counts, b) i = .ok (counts', b')) : CountsOk m idx counts' := by
  unfold Keleusma.countChunk at hs
  split at hs
  next chunk hi hchunk =>
    split at hs
    next hready =>
      obtain ⟨n, hn, hs⟩ := bind_eq_ok hs
      cases hs
      exact h.set hi hchunk hready hn
    next =>
      cases hs
      exact h
  next =>
    cases hs
    exact h

theorem CountsOk.foldlM {is : List ℕ} {s s' : List (Option ℕ) × Bool} (h : CountsOk m idx s.1)
    (hs : is.foldlM (Keleusma.countChunk m) s = .ok s') : CountsOk m idx s'.1 := by
  induction is generalizing s with
  | nil =>
    cases hs
    exact h
  | cons i is ih =>
    obtain ⟨s₁, hs₁, hs⟩ := bind_eq_ok hs
    exact ih (h.countChunk hs₁) hs

theorem CountsOk.countRounds {fuel : ℕ} (h : CountsOk m idx counts)
    (hs : countRounds m fuel counts = .ok counts') : CountsOk m idx counts' := by
  induction fuel generalizing counts with
  | zero =>
    cases hs
    exact h
  | succ fuel ih =>
    obtain ⟨⟨counts₁, progressed⟩, hround, hs⟩ := bind_eq_ok hs
    have hok : CountsOk m idx counts₁ := h.foldlM hround
    cases progressed with
    | true => exact ih hok hs
    | false =>
      cases hs
      exact hok

/-! ## The chunks that may yield -/

theorem mem_range_of_op {op : Op} (h : op ∈ m.ops i) : i ∈ List.range m.chunks.length := by
  rw [List.mem_range]
  by_contra hle
  rw [Module.ops, List.getElem?_eq_none (Nat.le_of_not_lt hle)] at h
  cases h

theorem mayYield_spec (m : Module) : (∀ i, .yield ∈ m.ops i → i ∈ mayYield m) ∧
    ∀ i callee args, Op.call callee args ∈ m.ops i → callee ∈ mayYield m → i ∈ mayYield m := by
  have hfuel : (List.range m.chunks.length).length < m.chunks.length + 1 +
      ((List.range m.chunks.length).filter fun i => (m.ops i).any (· == .yield)).length := by
    rw [List.length_range]
    omega
  obtain ⟨hmarked, -, hclosed⟩ := Marking.rounds_closed (callsMarked m)
    (List.nodup_range.filter _) (List.filter_subset_self _) hfuel
  refine ⟨fun i hi => hmarked ?_, fun i callee args hi hcallee => hclosed i (mem_range_of_op hi) ?_⟩
  · exact List.mem_filter.mpr ⟨mem_range_of_op hi, List.any_eq_true.mpr ⟨_, hi, beq_self_eq_true _⟩⟩
  · exact List.any_eq_true.mpr ⟨_, hi, decide_eq_true hcallee⟩

theorem reachableFrom_spec (h : idx < m.chunks.length) : idx ∈ reachableFrom m idx ∧
    ∀ i j, i ∈ reachableFrom m idx → Calls m i j → j ∈ reachableFrom m idx := by
  have hsucc : ∀ i ∈ List.range m.chunks.length,
      (m.ops i).filterMap (callee? m) ⊆ List.range m.chunks.length := by
    intro i _ j hj
    obtain ⟨op, -, hop⟩ := List.mem_filterMap.mp hj
    cases op with
    | call callee args =>
      rw [callee?] at hop
      split_ifs at hop with hlt
      cases hop
      exact List.mem_range.mpr hlt
    | _ => cases hop
  have hstart : Marking.Searching (fun i => (m.ops i).filterMap (callee? m))
      (List.range m.chunks.length) m.chunks.length [idx] [idx] := {
    nodup := List.pairwise_singleton _ idx
    within := List.cons_subset.mpr ⟨List.mem_range.mpr h, List.nil_subset _⟩
    todo := List.Subset.refl [idx]
    done := fun a ha hnot => absurd ha hnot
    fuel := by rw [List.length_range] }
  obtain ⟨hmarked, -, hclosed⟩ := Marking.search_closed hsucc hstart
  refine ⟨hmarked (List.mem_singleton_self idx), fun i j hi hcall => hclosed i hi ?_⟩
  obtain ⟨args, hop, hlt⟩ := hcall
  exact List.mem_filterMap.mpr ⟨_, hop, if_pos hlt⟩

/-! ## The report -/

/-- What the result for a chunk rests on: counts for all chunks that calls lead to. -/
structure ResumeReport (m : Module) (idx n : ℕ) (known : List ℕ) (reach : ℕ → Prop) : Prop where
  entered : reach idx
  called : ∀ i j, reach i → Calls m i j → reach j
  counted : ∀ i c, reach i → m.chunks[i]? = some c →
    regionYieldCount c 0 c.ops.length known = .ok (known.getD i 0) ∨
      ∀ op ∈ c.ops, yieldPrice known op = 0
  result : ∀ c, m.chunks[idx]? = some c →
    c.blockType ≠ .stream ∧ n = known.getD idx 0 ∨
    c.blockType = .stream ∧ (∃ r, c.ops.findIdx? (· == .reset) = some r ∧
      regionYieldCount c 0 r known = .ok n) ∨
    ∀ op ∈ c.ops, yieldPrice known op = 0

/-- A chunk that cannot yield counts nothing. -/
theorem yieldPrice_eq_zero (hchunk : m.chunks[i]? = some chunk) (hi : i ∉ mayYield m)
    (hknown : ∀ j, j ∉ mayYield m → known.getD j 0 = 0) :
    ∀ op ∈ chunk.ops, yieldPrice known op = 0 := by
  obtain ⟨hyield, hcall⟩ := mayYield_spec m
  have hops : m.ops i = chunk.ops := by rw [Module.ops, hchunk, Option.elim]
  intro op hop
  rw [← hops] at hop
  cases op with
  | yield => exact absurd (hyield i hop) hi
  | call callee args =>
    rw [yieldPrice, hknown callee fun hmem => hi (hcall i callee args hop hmem)]
    exact Nat.zero_min _
  | _ => rfl

/-- **What the number of resumes rests on.** -/
theorem maxResumesBeforeReset_report (h : maxResumesBeforeReset m idx = .ok n) :
    ∃ known reach, ResumeReport m idx n known reach := by
  unfold maxResumesBeforeReset at h
  cases hchunk : m.chunks[idx]? with
  | none =>
    rw [hchunk] at h
    cases h
  | some chunk =>
  rw [hchunk] at h
  dsimp only at h
  have hlt : idx < m.chunks.length := (List.getElem?_eq_some_iff.mp hchunk).1
  split at h
  next hmay =>
    have hzero {i : ℕ} {c : Chunk} (hc : m.chunks[i]? = some c) (hi : i ∉ mayYield m) :
        ∀ op ∈ c.ops, yieldPrice [] op = 0 :=
      yieldPrice_eq_zero hc hi fun _ _ => rfl
    refine ⟨[], (· ∉ mayYield m), hmay, fun i j hi hcall hj => ?_,
      fun i c hi hc => .inr (hzero hc hi), fun c hc => .inr (.inr (hzero hc hmay))⟩
    obtain ⟨args, hop, -⟩ := hcall
    exact hi ((mayYield_spec m).2 i j args hop hj)
  next hmay =>
  obtain ⟨counts, hrounds, h⟩ := bind_eq_ok h
  have hok : CountsOk m idx counts := CountsOk.start.countRounds hrounds
  split at h
  · cases h
  next hnone =>
  have hreach := reachableFrom_spec hlt
  have hcount {i : ℕ} (hi : i < m.chunks.length) :
      ∃ k, counts[i]? = some (some k) ∧ (knownCounts counts).getD i 0 = k := by
    cases hk : counts[i]? with
    | none =>
      rw [List.getElem?_eq_none_iff, hok.length] at hk
      omega
    | some k =>
      cases k with
      | none => exact absurd (List.any_eq_true.mpr ⟨_, List.mem_of_getElem? hk, rfl⟩) hnone
      | some k =>
        refine ⟨k, rfl, ?_⟩
        rw [knownCounts, List.getD_eq_getElem?_getD, List.getElem?_map, hk]
        rfl
  have hknown : ∀ j, j ∉ mayYield m → (knownCounts counts).getD j 0 = 0 := by
    intro j hj
    by_cases hjlt : j < m.chunks.length
    · obtain ⟨k, hk, hget⟩ := hcount hjlt
      have hk0 := hok.zero j _ hk fun hcounting => hj hcounting.1
      rw [hget]
      exact Option.some.inj hk0
    · rw [knownCounts, List.getD_eq_getElem?_getD, List.getElem?_map, List.getElem?_eq_none]
      · rfl
      · rw [hok.length]
        omega
  refine ⟨knownCounts counts, (· ∈ reachableFrom m idx), hreach.1, hreach.2,
    fun i c hi hc => ?_, fun c hc => ?_⟩
  · by_cases hi' : i ∈ mayYield m
    · obtain ⟨k, hk, hget⟩ := hcount (List.getElem?_eq_some_iff.mp hc).1
      obtain ⟨c', hc', -, hn⟩ := hok.counted i k hk ⟨hi', hi⟩
      cases hc.symm.trans hc'
      exact .inl (hget ▸ hn)
    · exact .inr (yieldPrice_eq_zero hc hi' hknown)
  · cases hchunk.symm.trans hc
    split at h
    next hstream =>
      cases hreset : chunk.ops.findIdx? (· == .reset) with
      | none =>
        rw [hreset] at h
        cases h
      | some r =>
        rw [hreset] at h
        exact .inr (.inl ⟨hstream, r, rfl, h⟩)
    next hstream =>
      cases h
      exact .inl ⟨hstream, rfl⟩

end Keleusma
