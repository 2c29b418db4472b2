import Keleusma.Verify.StackDemand

/-!
# The stack of a module

The analysis of a module takes the chunks in the order of calls, so that it finds for each what it
has found for those it calls (`wcmu_analysed`). In slots this is a report that bounds the height of
the stack at every position, a call counted with the slots of the chunk it enters
(`moduleWcmu_report`).
-/

namespace Keleusma

open Saturating (u32Max)

variable {m : Module} {text : TextAnalysis} {nativeWcmu : List ℕ} {vsb : ℕ}

/-- What the bound relies on in a chunk and the verifier does not check. -/
structure StackDisciplined (c : Chunk) : Prop where
  /-- The `Else` operands name their own `EndIf`. -/
  matched : ElseMatched c.ops
  /-- No loop is left with more operands than it is entered with. -/
  neutral : LoopsNeutral c.ops
  /-- A `loop fn` is one iteration from `Stream` to `Reset`. -/
  whole : IterationWhole c
  /-- `Return` finds its result. -/
  returns : ∀ ip h, c.ops[ip]? = some .return → FlowReaches c.ops heightEff 0 ip h → 0 < h

/-! ## The table -/

/-- The table has entries for chunks, each from the entries of the chunks it calls. -/
def Analysed (text : TextAnalysis) (m : Module) (nativeWcmu : List ℕ) (vsb : ℕ) (done : List ℕ)
    (table : WcmuTable) : Prop :=
  ∀ i ∈ done, ∃ c bytes t before rt, m.chunks[i]? = some c ∧
    computeChunkWcmu text c ⟨before, nativeWcmu, m.sharedLayout⟩ rt vsb = .ok (bytes, t) ∧
    table.wcmu i = some bytes ∧ ∀ j, Calls m i j → before j = table.wcmu j

/-- The analysis of one more chunk, after those it calls. -/
theorem Analysed.snoc {done : List ℕ} {table table' : WcmuTable} {idx : ℕ}
    (h : Analysed text m nativeWcmu vsb done table) (hpost : PostOrder (Calls m) (done ++ [idx]))
    (hnew : idx ∉ done) (hs : wcmuChunkAt text m nativeWcmu vsb table idx = .ok table') :
    Analysed text m nativeWcmu vsb (done ++ [idx]) table' := by
  unfold wcmuChunkAt at hs
  cases hc : m.chunks[idx]? with
  | none =>
    rw [hc] at hs
    cases hs
  | some c =>
    rw [hc] at hs
    obtain ⟨⟨bytes, t⟩, hbytes, hs⟩ := bind_eq_ok hs
    cases hs
    -- what was found before stays
    have hkeeps : ∀ j ∈ done, Function.update table.wcmu idx (some bytes) j = table.wcmu j :=
      fun j hj => Function.update_of_ne (ne_of_mem_of_not_mem hj hnew) _ _
    intro i hi
    rcases List.mem_append.mp hi with hi | hi
    · obtain ⟨c', bytes', t', before, rt, hc', hbytes', hfound, hcalls⟩ := h i hi
      refine ⟨c', bytes', t', before, rt, hc', hbytes', (hkeeps i hi).trans hfound, fun j hj => ?_⟩
      obtain ⟨front, back, rfl⟩ := List.append_of_mem hi
      have hmem := hpost.of_append front i back rfl j hj
      exact (hcalls j hj).trans (hkeeps j (List.mem_append_left _ hmem)).symm
    · obtain rfl := List.mem_singleton.mp hi
      refine ⟨c, bytes, t, table.wcmu, table.returnsText, hc, hbytes, Function.update_self .., ?_⟩
      exact fun j hj => (hkeeps j (hpost done i [] rfl j hj)).symm

theorem analysed_foldlM {order : List ℕ} {table table' : WcmuTable}
    (hpost : PostOrder (Calls m) order) (hnodup : order.Nodup)
    (h : order.foldlM (wcmuChunkAt text m nativeWcmu vsb) table = .ok table') :
    Analysed text m nativeWcmu vsb order table' := by
  induction order using List.reverseRecOn generalizing table' with
  | nil => exact List.forall_mem_nil _
  | append_singleton order idx ih =>
    rw [List.foldlM_append] at h
    obtain ⟨table₁, hbefore, h⟩ := bind_eq_ok h
    rw [List.foldlM_cons] at h
    obtain ⟨table₂, hstep, h⟩ := bind_eq_ok h
    cases h
    obtain ⟨hnodup', -, hnew⟩ := List.nodup_append.mp hnodup
    exact (ih hpost.of_append hnodup' hbefore).snoc hpost
      (fun hmem => hnew idx hmem idx (List.mem_singleton_self idx) rfl) hstep

/-- **The bytes of a module** are those of its chunks, each found from the chunks it calls. -/
theorem wcmu_analysed {bytes : List (ℕ × ℕ)} (h : moduleWcmu text m nativeWcmu vsb = .ok bytes) :
    ∃ (order : List ℕ) (table : WcmuTable),
      order.Perm (List.range m.chunks.length) ∧ PostOrder (Calls m) order ∧
      bytes = (List.range m.chunks.length).map (fun i => (table.wcmu i).getD (0, 0)) ∧
      Analysed text m nativeWcmu vsb (List.range m.chunks.length) table := by
  obtain ⟨order, horder, h⟩ := bind_eq_ok h
  obtain ⟨table, htable, h⟩ := bind_eq_ok h
  cases h
  cases ho : topologicalCallOrder m with
  | error e =>
    rw [ho] at horder
    cases horder
  | ok order' =>
    rw [ho] at horder
    cases horder
    obtain ⟨hperm, hpost⟩ := (topologicalCallOrder_spec m).1 order ho
    have hnodup : order.Nodup := hperm.nodup_iff.mpr List.nodup_range
    exact ⟨order, table, hperm, hpost, rfl, fun i hi => analysed_foldlM hpost hnodup htable i (hperm.mem_iff.mpr hi)⟩

/-! ## The report -/

/-- How many slots each chunk needs, the frames it enters included: enough for its locals and for
every height at which control can be, with what the instruction there puts on the stack. -/
def StackReport (m : Module) (slots : ℕ → ℕ) : Prop :=
  ∀ i c, m.chunks[i]? = some c → ∃ peak, slots i = c.localCount + peak ∧
    ∀ ip h, FlowReaches c.ops heightEff 0 ip h → ∃ op, c.ops[ip]? = some op ∧ opRequires op ≤ h ∧
      h + op.stackGrowth ≤ peak ∧
      ∀ j n, op = .call j n → j < m.chunks.length → h - n + slots j ≤ peak

/-- The slots of a chunk that was analysed before are counted in full. -/
theorem CallResolver.slots_eq {r : CallResolver} {j n : ℕ} (hvsb : 0 < vsb)
    (h : (r.resolveChunk j).1 = n * vsb) (hlt : n < 2 ^ 31) : r.slots vsb j = n := by
  rw [CallResolver.slots, h, Nat.mul_div_cancel n hvsb, asI32_of_lt hlt]

/-- What all chunks can push, by their indices. -/
theorem stackDemand_eq {order : List ℕ} (hperm : order.Perm (List.range m.chunks.length)) :
    (order.map fun i => (m.chunks[i]?).elim 0 Chunk.stackDemand).sum = m.stackDemand := by
  rw [Module.stackDemand, (hperm.map _).sum_eq]
  congr 1
  refine List.ext_getElem (by simp) fun i hi hi' => ?_
  simp only [List.getElem_map, List.getElem_range]
  rw [List.getElem?_eq_getElem (by simpa using hi'), Option.elim]

/-- Slots of at least two bytes are fewer than the sum of 32 bits can go wrong at; slots of one byte
are, where the module cannot push so many. -/
def SlotsCounted (m : Module) (vsb : ℕ) : Prop := 1 < vsb ∨ vsb = 1 ∧ m.stackDemand < 2 ^ 31

theorem SlotsCounted.pos (h : SlotsCounted m vsb) : 0 < vsb := by
  rcases h with hlt | ⟨rfl, -⟩
  · exact Nat.zero_lt_of_lt hlt
  · exact Nat.one_pos

/-- **The analysis makes a report** of the chunks of an accepted module. -/
theorem moduleWcmu_report (hv : verify m = .ok ()) (hd : ∀ c ∈ m.chunks, StackDisciplined c)
    (hvsb : SlotsCounted m vsb) {bytes : List (ℕ × ℕ)}
    (h : moduleWcmu text m nativeWcmu vsb = .ok bytes) :
    ∃ slots, StackReport m slots ∧
      ∀ i < m.chunks.length, (bytes[i]?).map (·.1) = some (slots i * vsb) := by
  have hpos := hvsb.pos
  obtain ⟨order, table, hperm, hpost, rfl, htable⟩ := wcmu_analysed h
  have hstack : ∀ i, ∃ n, i < m.chunks.length →
      ((table.wcmu i).getD (0, 0)).1 = n * vsb ∧ n * vsb ≤ u32Max := by
    intro i
    by_cases hi : i < m.chunks.length
    · obtain ⟨c, b, t, before, rt, hc, hb, hfound, -⟩ := htable i (List.mem_range.mpr hi)
      have hdc := hd c (List.mem_of_getElem? hc)
      obtain ⟨peak, heq, hle, -⟩ :=
        computeChunkWcmu_fits hv hc hdc.matched hdc.neutral hdc.whole hb
      rw [hfound]
      exact ⟨c.localCount + peak, fun _ => ⟨heq, heq ▸ hle⟩⟩
    · exact ⟨0, fun h => absurd h hi⟩
  choose slots hslots using hstack
  -- a call of a chunk that has been analysed before is charged its slots
  have hcall {i j n : ℕ} {c : Chunk} {before : ℕ → Option (ℕ × ℕ)}
      (hc : m.chunks[i]? = some c) (hop : Op.call j n ∈ c.ops) (hj : j < m.chunks.length)
      (hcalls : ∀ j, Calls m i j → before j = table.wcmu j) (hlt : slots j < 2 ^ 31) :
      (⟨before, nativeWcmu, m.sharedLayout⟩ : CallResolver).slots vsb j = slots j := by
    have hbefore := hcalls j ⟨n, by rw [Module.ops, hc]; exact hop, hj⟩
    have hfound := (hslots j hj).1
    rw [← hbefore] at hfound
    exact CallResolver.slots_eq hpos hfound hlt
  have hsmall : ∀ i < m.chunks.length, slots i < 2 ^ 31 := by
    rcases hvsb with hlt | ⟨rfl, hdemand⟩
    · intro i hi
      have hle := (hslots i hi).2
      have htwo : slots i * 2 ≤ slots i * vsb := Nat.mul_le_mul_left _ hlt
      unfold u32Max at hle
      omega
    rw [← stackDemand_eq hperm] at hdemand
    intro i hi
    refine (demand_covers hpost hdemand (fun i hi M hM hle => ?_) i
      (hperm.mem_iff.mpr (List.mem_range.mpr hi))).trans_lt hdemand
    have hi := List.mem_range.mp (hperm.mem_iff.mp hi)
    obtain ⟨c, b, t, before, rt, hc, hb, hfound, hcalls⟩ := htable i (List.mem_range.mpr hi)
    have hdc := hd c (List.mem_of_getElem? hc)
    have hdemand := computeChunkWcmu_demand (M := M) (fun j n hop => ?_) hv hc hdc.matched
      hdc.whole hb
    · have hs := (hslots i hi).1
      rw [hfound] at hs
      rw [hc, Option.elim]
      exact Nat.le_of_mul_le_mul_right (hs.ge.trans hdemand) Nat.one_pos
    · have hj : j < m.chunks.length := (verify_chunkAccepted hv (List.mem_of_getElem? hc)).call_lt hop
      have hlej := hle j ⟨n, by rw [Module.ops, hc]; exact hop, hj⟩
      rw [hcall hc hop hj hcalls (by omega)]
      exact_mod_cast hlej
  refine ⟨slots, fun i c hc => ?_, fun i hi => ?_⟩
  · have hi : i < m.chunks.length := (List.getElem?_eq_some_iff.mp hc).1
    obtain ⟨c', b, t, before, rt, hc', hb, hfound, hcalls⟩ := htable i (List.mem_range.mpr hi)
    obtain rfl := Option.some.inj (hc'.symm.trans hc)
    have hdc := hd c' (List.mem_of_getElem? hc)
    obtain ⟨peak, heq, -, hfits⟩ :=
      computeChunkWcmu_fits hv hc hdc.matched hdc.neutral hdc.whole hb
    have hs := (hslots i hi).1
    rw [hfound] at hs
    refine ⟨peak, Nat.eq_of_mul_eq_mul_right hpos (hs.symm.trans heq), fun ip h hr => ?_⟩
    obtain ⟨op, hop, hreq⟩ := accepted_heights hv hc hdc.matched hr
    obtain ⟨op', hop', hgood⟩ := hfits ip h hr
    obtain rfl := Option.some.inj (hop'.symm.trans hop)
    refine ⟨op', hop, hreq, by exact_mod_cast hgood.growth, ?_⟩
    rintro j n rfl hj
    have hgood := hgood.call j n rfl
    rw [hcall hc (List.mem_of_getElem? hop) hj hcalls (hsmall j hj)] at hgood
    have hreq : n ≤ h := hreq
    push_cast [Nat.cast_sub hreq] at hgood
    omega
  · rw [List.getElem?_map, List.getElem?_range hi]
    exact congrArg some (hslots i hi).1

end Keleusma
