import Keleusma.Logic.Outcomes
import Keleusma.Verify.ResumeCount
import Keleusma.Verify.Walks

/-!
# Cycles of calls and the number of resumes

The number of resumes is found in rounds, callees first, and is refused when the rounds leave a
chunk over. That happens only where a chunk that calls lead to, and that may yield, may come to call
itself; and where a number is found there is no such chunk (`resumes_cycle`). The rounds that the
number of chunks allows are enough: each of them but the last counts a chunk.
-/

namespace Keleusma

open Outcomes (Avoids)
open Saturating (u32Max)

variable {m : Module} {chunk : Chunk} {idx i n fuel : ℕ} {counts counts' : List (Option ℕ)}

/-! ## The rounds -/

/-- A chunk is left alone, if it is counted or waits for a callee, or is counted. -/
theorem countChunk_ok {s s' : List (Option ℕ) × Bool} (h : countChunk m s i = .ok s') :
    s' = s ∧ (∀ c, s.1[i]? = some none → m.chunks[i]? = some c → calleesCounted s.1 c = false) ∨
    ∃ c n, s.1[i]? = some none ∧ m.chunks[i]? = some c ∧ calleesCounted s.1 c = true ∧
      s' = (s.1.set i (some n), true) := by
  unfold countChunk at h
  split at h
  next chunk hi hchunk =>
    split at h
    next hready =>
      obtain ⟨n, hn, h⟩ := bind_eq_ok h
      exact .inr ⟨chunk, n, hi, hchunk, hready, (Except.ok.inj h).symm⟩
    next hready =>
      refine .inl ⟨(Except.ok.inj h).symm, fun c _ hc => ?_⟩
      cases hchunk.symm.trans hc
      exact Bool.not_eq_true _ ▸ hready
  next hno =>
    refine .inl ⟨(Except.ok.inj h).symm, fun c hi hc => ?_⟩
    exact absurd hc (hno c hi)

/-- The number of chunks that have not been counted. -/
def uncounted (counts : List (Option ℕ)) : ℕ := counts.countP Option.isNone

theorem uncounted_set (hi : counts[i]? = some none) :
    uncounted (counts.set i (some n)) + 1 = uncounted counts := by
  obtain ⟨hlt, hget⟩ := List.getElem?_eq_some_iff.mp hi
  have hpos : 0 < counts.countP Option.isNone :=
    List.countP_pos_iff.mpr ⟨_, List.mem_of_getElem? hi, rfl⟩
  unfold uncounted
  rw [List.countP_set hlt, hget]
  simp only [Option.isNone_none, Option.isNone_some, if_true, Bool.false_eq_true, if_false]
  omega

/-- A chunk that has not been counted waits for a callee. -/
def Waits (m : Module) (counts : List (Option ℕ)) (i : ℕ) : Prop :=
  ∀ c, counts[i]? = some none → m.chunks[i]? = some c → calleesCounted counts c = false

/-- A round counts a chunk, or leaves none that does not wait. -/
theorem countRound_ok {is : List ℕ} {s s' : List (Option ℕ) × Bool}
    (h : is.foldlM (countChunk m) s = .ok s') :
    (s' = s ∧ ∀ i ∈ is, Waits m s.1 i) ∨ s'.2 = true ∧ uncounted s'.1 < uncounted s.1 := by
  induction is generalizing s with
  | nil =>
    cases h
    exact .inl ⟨rfl, List.forall_mem_nil _⟩
  | cons i is ih =>
    obtain ⟨s₁, hs₁, hrest⟩ := bind_eq_ok h
    rcases countChunk_ok hs₁ with ⟨rfl, hwaits⟩ | ⟨c, n, hi, -, -, rfl⟩
    · rcases ih hrest with ⟨rfl, hall⟩ | hcounted
      · exact .inl ⟨rfl, List.forall_mem_cons.mpr ⟨hwaits, hall⟩⟩
      · exact .inr hcounted
    · have hset := uncounted_set (n := n) hi
      rcases ih hrest with ⟨rfl, -⟩ | ⟨hflag, hlt⟩
      · exact .inr ⟨rfl, by dsimp only; omega⟩
      · exact .inr ⟨hflag, by dsimp only at hlt; omega⟩

/-- **The rounds end because nothing is left to count** but chunks that wait. -/
theorem countRounds_waits (hfuel : uncounted counts < fuel)
    (h : countRounds m fuel counts = .ok counts') : ∀ i < m.chunks.length, Waits m counts' i := by
  induction fuel generalizing counts with
  | zero => omega
  | succ fuel ih =>
    obtain ⟨⟨counts₁, progressed⟩, hround, h⟩ := bind_eq_ok h
    rcases countRound_ok hround with ⟨heq, hwaits⟩ | ⟨hflag, hlt⟩
    · cases heq
      cases h
      exact fun i hi => hwaits i (List.mem_range.mpr hi)
    · cases hflag
      exact ih (by dsimp only at hlt; omega) h

/-- The callees of a chunk that waits are not all counted. -/
theorem exists_uncounted (h : calleesCounted counts chunk = false) :
    ∃ callee args, Op.call callee args ∈ chunk.ops ∧ counts[callee]? = some none := by
  obtain ⟨op, hop, hfalse⟩ := List.all_eq_false.mp h
  cases op with
  | call callee args =>
    refine ⟨callee, args, hop, ?_⟩
    dsimp only at hfalse
    cases hc : counts[callee]? with
    | none =>
      rw [hc] at hfalse
      exact absurd rfl hfalse
    | some k =>
      cases k with
      | none => rfl
      | some k =>
        rw [hc] at hfalse
        exact absurd rfl hfalse
  | _ => exact absurd rfl hfalse

/-! ## Chunks that come to call themselves -/

open Relation (ReflTransGen TransGen)

/-- A chunk that calls lead to, and that may yield, may come to call itself. -/
def YieldsOnCycle (m : Module) (idx : ℕ) : Prop :=
  ∃ i j, ReflTransGen (Calls m) idx i ∧ TransGen (Calls m) i i ∧ ReflTransGen (Calls m) i j ∧
    .yield ∈ m.ops j

/-- The chunks that are marked may yield. -/
theorem yields_of_mayYield (hi : i ∈ mayYield m) :
    ∃ j, ReflTransGen (Calls m) i j ∧ .yield ∈ m.ops j := by
  have hall : ∀ i ∈ mayYield m, i < m.chunks.length ∧
      ∃ j, ReflTransGen (Calls m) i j ∧ .yield ∈ m.ops j := by
    refine Marking.rounds_sound (fun i hi => ?_) fun marked i hmarked hrule => ?_
    · obtain ⟨hrange, hany⟩ := List.mem_filter.mp hi
      obtain ⟨op, hop, heq⟩ := List.any_eq_true.mp hany
      obtain rfl := eq_of_beq heq
      exact ⟨List.mem_range.mp hrange, i, .refl, hop⟩
    · obtain ⟨op, hop, hcall⟩ := List.any_eq_true.mp hrule
      cases op with
      | call callee args =>
        obtain ⟨hlt, j, hj, hyield⟩ := hmarked callee (of_decide_eq_true hcall)
        exact ⟨List.mem_range.mp (mem_range_of_op hop), j, .head ⟨args, hop, hlt⟩ hj, hyield⟩
      | _ => cases hcall
  exact (hall i hi).2

theorem mayYield_of_calls {j : ℕ} (h : ReflTransGen (Calls m) i j) (hj : j ∈ mayYield m) :
    i ∈ mayYield m := by
  induction h using ReflTransGen.head_induction_on with
  | refl => exact hj
  | head hcall _ ih =>
    obtain ⟨args, hop, -⟩ := hcall
    exact (mayYield_spec m).2 _ _ args hop ih

theorem reaches_of_reachableFrom (hi : i ∈ reachableFrom m idx) : ReflTransGen (Calls m) idx i := by
  refine Marking.search_sound (P := fun i => ReflTransGen (Calls m) idx i) ?_
    (List.Subset.refl [idx]) (fun i j hreach hj => ?_) i hi
  · exact List.forall_mem_singleton.mpr .refl
  · obtain ⟨op, hop, hcallee⟩ := List.mem_filterMap.mp hj
    cases op with
    | call callee args =>
      rw [callee?] at hcallee
      split_ifs at hcallee with hlt
      cases hcallee
      exact hreach.tail ⟨args, hop, hlt⟩
    | _ => cases hcallee

/-! ## The refusal -/

/-- The chunks that are left over lie on a cycle. -/
theorem yieldsOnCycle_of_uncounted (hok : CountsOk m idx counts)
    (hwaits : ∀ i < m.chunks.length, Waits m counts i) (hleft : counts.any Option.isNone = true) :
    YieldsOnCycle m idx := by
  have hlt {i : ℕ} (hi : counts[i]? = some none) : i < m.chunks.length :=
    hok.length ▸ (List.getElem?_eq_some_iff.mp hi).1
  have hmem {i : ℕ} : i ∈ (List.range m.chunks.length).filter (fun i => counts[i]? == some none) ↔
      counts[i]? = some none := by
    rw [List.mem_filter, List.mem_range, beq_iff_eq]
    exact ⟨And.right, fun hi => ⟨hlt hi, hi⟩⟩
  obtain ⟨k, hk, hnone⟩ := List.any_eq_true.mp hleft
  obtain rfl := Option.isNone_iff_eq_none.mp hnone
  obtain ⟨i, hi⟩ := List.mem_iff_getElem?.mp hk
  -- each of them calls another
  obtain ⟨i, hi, hcycle⟩ := exists_cycle (r := Calls m) (List.ne_nil_of_mem (hmem.mpr hi))
    fun i hi => by
      have hi := hmem.mp hi
      have hc : m.chunks[i]? = some _ := List.getElem?_eq_getElem (hlt hi)
      obtain ⟨callee, args, hop, hcallee⟩ := exists_uncounted (hwaits i (hlt hi) _ hi hc)
      refine ⟨callee, hmem.mpr hcallee, args, ?_, hlt hcallee⟩
      rwa [Module.ops, hc, Option.elim]
  have hcount : ToCount m idx i := by
    by_contra hnot
    cases hok.zero i _ (hmem.mp hi) hnot
  obtain ⟨j, hj, hyield⟩ := yields_of_mayYield hcount.1
  exact ⟨i, j, reaches_of_reachableFrom hcount.2, hcycle, hj, hyield⟩

/-- No chunk that has been counted comes to call itself. -/
def Founded (m : Module) (idx : ℕ) (counts : List (Option ℕ)) : Prop :=
  ∀ i k, counts[i]? = some (some k) → ToCount m idx i →
    Acc (fun j i => Calls m i j ∧ ToCount m idx j) i

theorem Founded.set (h : Founded m idx counts) (hok : CountsOk m idx counts)
    (hc : m.chunks[i]? = some chunk)
    (hready : calleesCounted counts chunk = true) : Founded m idx (counts.set i (some n)) := by
  intro j k hj hcount
  by_cases hji : i = j
  · subst hji
    refine .intro i fun j hj => ?_
    obtain ⟨⟨args, hop, hlt⟩, hcallee⟩ := hj
    rw [Module.ops, hc, Option.elim] at hop
    have hne := calleesCounted_callee hready hop
    rw [← hok.length] at hlt
    rw [List.getElem?_eq_getElem hlt] at hne
    cases hk : counts[j] with
    | none => exact absurd (congrArg some hk) hne
    | some k => exact h j k (List.getElem?_eq_some_iff.mpr ⟨hlt, hk⟩) hcallee
  · rw [List.getElem?_set_ne hji] at hj
    exact h j k hj hcount

theorem Founded.foldlM {is : List ℕ} {s s' : List (Option ℕ) × Bool} (h : Founded m idx s.1)
    (hok : CountsOk m idx s.1) (hs : is.foldlM (countChunk m) s = .ok s') :
    Founded m idx s'.1 := by
  induction is generalizing s with
  | nil =>
    cases hs
    exact h
  | cons i is ih =>
    obtain ⟨s₁, hs₁, hrest⟩ := bind_eq_ok hs
    refine ih ?_ (hok.countChunk hs₁) hrest
    rcases countChunk_ok hs₁ with ⟨rfl, -⟩ | ⟨c, n, -, hc, hready, rfl⟩
    · exact h
    · exact h.set hok hc hready

theorem Founded.countRounds (h : Founded m idx counts) (hok : CountsOk m idx counts)
    (hs : countRounds m fuel counts = .ok counts') : Founded m idx counts' := by
  induction fuel generalizing counts with
  | zero =>
    cases hs
    exact h
  | succ fuel ih =>
    obtain ⟨⟨counts₁, progressed⟩, hfold, hs⟩ := bind_eq_ok hs
    have hfounded : Founded m idx counts₁ := h.foldlM hok hfold
    cases progressed with
    | true => exact ih hfounded (hok.foldlM hfold) hs
    | false =>
      cases hs
      exact hfounded

theorem not_yieldsOnCycle_of_counted (hok : CountsOk m idx counts) (h : Founded m idx counts)
    (hidx : idx < m.chunks.length) (hall : counts.any Option.isNone = false) :
    ¬YieldsOnCycle m idx := by
  rintro ⟨i, j, hreach, hcycle, hj, hyield⟩
  obtain ⟨hentry, hcalls⟩ := reachableFrom_spec hidx
  have hreachable {i : ℕ} (h : ReflTransGen (Calls m) idx i) : i ∈ reachableFrom m idx := by
    induction h with
    | refl => exact hentry
    | tail _ hcall ih => exact hcalls _ _ ih hcall
  have hmay : i ∈ mayYield m := mayYield_of_calls hj ((mayYield_spec m).1 j hyield)
  have hcount : ToCount m idx i := ⟨hmay, hreachable hreach⟩
  have hlt : i < counts.length := by
    obtain ⟨k, ⟨args, hop, -⟩, -⟩ := TransGen.head'_iff.mp hcycle
    rw [hok.length]
    exact List.mem_range.mp (mem_range_of_op hop)
  -- the chunks of the cycle are all counted
  have hback : ∀ {a : ℕ}, TransGen (Calls m) a i → ReflTransGen (Calls m) idx a →
      TransGen (fun j i => Calls m i j ∧ ToCount m idx j) i a := by
    intro a ha
    induction ha using TransGen.head_induction_on with
    | single hcall => exact fun _ => .single ⟨hcall, hcount⟩
    | head hcall hrest ih =>
      intro hreach
      have hnext := hreach.tail hcall
      exact (ih hnext).tail ⟨hcall, mayYield_of_calls hrest.to_reflTransGen hmay, hreachable hnext⟩
  cases hk : counts[i] with
  | none =>
    exact Bool.false_ne_true (hall ▸ List.any_eq_true.mpr ⟨_, List.mem_of_getElem? (i := i)
      (List.getElem?_eq_some_iff.mpr ⟨hlt, hk⟩), rfl⟩)
  | some k =>
    have hfounded := h i k (List.getElem?_eq_some_iff.mpr ⟨hlt, hk⟩) hcount
    exact not_cycle_of_acc hfounded (hback hcycle hreach)

/-! ## The other errors -/

section Errors

variable {ip stop : ℕ}

theorem calleeCounts_avoids {known : List ℕ} {ops : List Op} :
    Avoids .callCycle (calleeCounts known ip ops) := by
  induction ops generalizing ip with
  | nil => exact .ok _ _
  | cons op ops ih =>
    refine .bind ?_ fun _ _ => .bind ih fun _ _ => .ok _ _
    cases op with
    | call callee args =>
      rw [calleeCount]
      split
      · exact .ok _ _
      · exact .error (by rintro ⟨⟩)
    | _ => exact .ok _ _

theorem regionYieldCount_avoids {known : List ℕ} :
    Avoids .callCycle (regionYieldCount chunk ip stop known) := by
  have hforward : Avoids .callCycle (structurally (checkForwardControlFlowTargets chunk)) := by
    unfold structurally
    cases checkForwardControlFlowTargets chunk with
    | ok u => exact .ok _ _
    | error e => exact .error (by rintro ⟨⟩)
  have hforeign : CostFault.Foreign .callCycle := trivial
  refine .bind hforward fun _ hfwd => .bind calleeCounts_avoids fun _ _ =>
    .bind (wcetRegionAt_avoids ?_ hforeign (by omega) _ _ _ _) fun _ _ => .ok _ _
  cases h : checkForwardControlFlowTargets chunk with
  | ok u => rfl
  | error e =>
    rw [h] at hfwd
    cases hfwd

theorem countRounds_avoids : Avoids .callCycle (countRounds m fuel counts) := by
  have hchunk (s : List (Option ℕ) × Bool) (i : ℕ) : Avoids .callCycle (countChunk m s i) := by
    unfold countChunk
    split
    · split_ifs
      · exact .bind regionYieldCount_avoids fun _ _ => .ok _ _
      · exact .ok _ _
    · exact .ok _ _
  have hround (is : List ℕ) (s : List (Option ℕ) × Bool) :
      Avoids .callCycle (is.foldlM (countChunk m) s) := by
    induction is generalizing s with
    | nil => exact .ok _ _
    | cons i is ih => exact .bind (hchunk s i) fun s' _ => ih s'
  induction fuel generalizing counts with
  | zero => exact .ok _ _
  | succ fuel ih =>
    refine .bind (hround _ _) fun s _ => ?_
    obtain ⟨counts', progressed⟩ := s
    cases progressed with
    | true => exact ih
    | false => exact .ok _ _

end Errors

/-! ## Refused for a cycle -/

/-- **The number of resumes is refused for a cycle of calls only where there is one** that a chunk
which may yield lies on and calls lead to, and no number is found where there is. -/
theorem resumes_cycle (m : Module) (idx : ℕ) :
    (maxResumesBeforeReset m idx = .error .callCycle → YieldsOnCycle m idx) ∧
    ∀ n, maxResumesBeforeReset m idx = .ok n → ¬YieldsOnCycle m idx := by
  unfold maxResumesBeforeReset
  cases hchunk : m.chunks[idx]? with
  | none => exact ⟨by rintro ⟨⟩, by rintro n ⟨⟩⟩
  | some chunk =>
  have hidx : idx < m.chunks.length := (List.getElem?_eq_some_iff.mp hchunk).1
  dsimp only
  by_cases hmay : idx ∉ mayYield m
  · rw [if_pos hmay]
    refine ⟨by rintro ⟨⟩, fun n _ => ?_⟩
    rintro ⟨i, j, hreach, -, hj, hyield⟩
    exact hmay (mayYield_of_calls (hreach.trans hj) ((mayYield_spec m).1 j hyield))
  rw [if_neg hmay]
  have hstart : uncounted (startCounts m idx) < m.chunks.length + 1 :=
    Nat.lt_succ_of_le (CountsOk.start.length ▸ List.countP_le_length)
  have hfounded : Founded m idx (startCounts m idx) := by
    intro i k hk hcount
    cases (startCounts_getElem? hk).1 hcount
  refine ⟨fun h => ?_, fun n h => ?_⟩
  · by_contra hno
    refine Avoids.bind countRounds_avoids (fun counts hrounds => ?_) h
    have hok : CountsOk m idx counts := CountsOk.start.countRounds hrounds
    by_cases hleft : counts.any Option.isNone = true
    · exact absurd (yieldsOnCycle_of_uncounted hok (countRounds_waits hstart hrounds) hleft) hno
    rw [if_neg hleft]
    by_cases hstream : chunk.blockType = .stream
    · rw [if_pos hstream]
      split
      · exact regionYieldCount_avoids
      · exact .error (by rintro ⟨⟩)
    · rw [if_neg hstream]
      exact .ok _ _
  · obtain ⟨counts, hrounds, h⟩ := bind_eq_ok h
    have hok : CountsOk m idx counts := CountsOk.start.countRounds hrounds
    split at h
    · cases h
    next hleft =>
      exact not_yieldsOnCycle_of_counted hok (hfounded.countRounds CountsOk.start hrounds) hidx
        (Bool.not_eq_true _ ▸ hleft)

/-- A chunk that yields and then calls another. -/
def yieldThenCall (callee : ℕ) : Chunk where
  name := "f"
  ops := [.pushImmediate 1, .yield, .popN 1, .call callee 0, .return]
  constants := []
  structTemplates := []
  localCount := 0
  paramCount := 0
  blockType := .reentrant
  paramTypes := []

/-- Two chunks that yield and call each other. -/
def callEachOther : Module where
  chunks := [yieldThenCall 1, yieldThenCall 0]
  nativeNames := []
  entryPoint := some 0
  dataLayout := none
  wordBitsLog2 := 6
  addrBitsLog2 := 6
  floatBitsLog2 := 6
  persistentCompositeBytes := 0
  sharedDataBytes := 0
  enumLayouts := []
  signatures := []
  nativeReturnShapes := []

/-- No number is found for `callEachOther`, because of its cycle. -/
theorem callEachOther_cycle :
    maxResumesBeforeReset callEachOther 0 = .error .callCycle ∧ YieldsOnCycle callEachOther 0 :=
  ⟨rfl, (resumes_cycle callEachOther 0).1 rfl⟩

end Keleusma
