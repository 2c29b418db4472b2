import Keleusma.Control.Loops
import Keleusma.Control.Transfers
import Keleusma.Verify.LoopBounds

/-!
# Loops as the compiler emits them

`ForRange` is a counted loop as the verifier has recognised it. The compiler sets the variable and
the limit of a for-range loop from constants directly before the loop (`SetBefore`), and steps the
variable by one at the end of the body.
-/

namespace Keleusma

/-- The integer that a local is set to in the assignments directly before a position. -/
inductive SetBefore (c : Chunk) (slot : ℕ) (n : ℤ) : ℕ → Prop
  | here {ip i : ℕ} (hconst : c.ops[ip]? = some (.const i))
      (hset : c.ops[ip + 1]? = some (.setLocal slot)) (hn : c.constants[i]? = some (.int n)) :
      SetBefore c slot n (ip + 2)
  | earlier {ip i other : ℕ} (hconst : c.ops[ip]? = some (.const i))
      (hset : c.ops[ip + 1]? = some (.setLocal other)) (hne : other ≠ slot)
      (h : SetBefore c slot n ip) : SetBefore c slot n (ip + 2)

/-- A loop from `l` to `e + 5` that counts a local in steps up to another one, as the verifier has
recognised it. -/
structure ForRange (c : Chunk) (l e var limit : ℕ) (s : ℤ) : Prop where
  test : TestAt c.ops l
  room : l + loopHeader ≤ e
  opens : c.ops[l]? = some (.loop (e + 6))
  readsVar : c.ops[l + 1]? = some (.getLocal var)
  readsLimit : c.ops[l + 2]? = some (.getLocal limit)
  tailReads : c.ops[e]? = some (.getLocal var)
  tailStep : ∃ i, c.ops[e + 1]? = some (.const i) ∧ c.constants[i]? = some (.int s)
  positive : 0 < s
  tailAdds : c.ops[e + 2]? = some .checkedAdd
  tailDrops : c.ops[e + 3]? = some (.popN 2)
  tailSets : c.ops[e + 4]? = some (.setLocal var)
  keepsVar : ∀ p, l + loopHeader ≤ p → p < e + 4 → c.ops[p]? ≠ some (.setLocal var)
  keepsLimit : ∀ p, l + loopHeader ≤ p → p < e + 5 → c.ops[p]? ≠ some (.setLocal limit)

/-- What the verifier does not check of the place of a counted loop: its variable and its limit are
not the parameter that a resume sets, and it does not go around the `Stream` of the chunk. -/
structure LoopApart (c : Chunk) (l : ℕ) : Prop where
  locals : ∀ slot, c.ops[l + 1]? = some (.getLocal slot) ∨ c.ops[l + 2]? = some (.getLocal slot) →
    0 < c.paramCount → slot ≠ 0
  within : ∀ m p, c.ops[l]? = some (.loop (m + 1)) → l < p → p < m → c.ops[p]? ≠ some .stream

/-- What the compiler sees to beyond what the verifier checks of a counted loop: its variable and
its limit are locals of their own that are set directly before the loop, the variable steps by one,
and the loop does not go around the `Stream` of the chunk. -/
structure CompiledLoop (c : Chunk) (l : ℕ) : Prop where
  sets : ∀ slot, c.ops[l + 1]? = some (.getLocal slot) ∨ c.ops[l + 2]? = some (.getLocal slot) →
    c.paramCount ≤ slot ∧ ∃ n, SetBefore c slot n l
  steps : ∀ m i, c.ops[l]? = some (.loop (m + 1)) → c.ops[m - 4]? = some (.const i) →
    c.constants[i]? = some (.int 1)
  within : ∀ m p, c.ops[l]? = some (.loop (m + 1)) → l < p → p < m → c.ops[p]? ≠ some .stream

theorem CompiledLoop.apart {c : Chunk} {l : ℕ} (h : CompiledLoop c l) : LoopApart c l where
  locals slot hreads hpos := by
    have hle := (h.sets slot hreads).1
    omega
  within := h.within

variable {chunk : Chunk} {slot n m var limit l : ℕ} {a : ℤ}

/-- The verifier finds the integer that a local is set to before a loop. -/
theorem SetBefore.trace {ip : ℕ} (h : SetBefore chunk slot a ip) :
    traceConstSetLocal chunk ip slot = some a := by
  induction h with
  | here hconst hset hn =>
    rw [traceConstSetLocal, if_pos hset, hconst]
    dsimp only
    rw [hn]
  | @earlier ip i other hconst hset hne h ih =>
    rw [traceConstSetLocal, if_neg (by rw [hset]; rintro ⟨⟩; exact hne rfl)]
    obtain ⟨p, rfl⟩ : ∃ p, ip = p + 2 := by cases h <;> exact ⟨_, rfl⟩
    rw [traceConstSetLocal, if_neg (by rw [hconst]; rintro ⟨⟩)]
    exact ih

theorem SetBefore.mem {ip : ℕ} (h : SetBefore chunk slot a ip) : .int a ∈ chunk.constants := by
  induction h with
  | here _ _ hn => exact List.mem_of_getElem? hn
  | earlier _ _ _ _ ih => exact ih

/-- The last five instructions of a body that steps its variable forward. -/
theorem advancesAtTail_shape {e : ℕ} (h : advancesAtTail chunk (e + 5) var = true) :
    chunk.ops[e]? = some (.getLocal var) ∧
      (∃ i s, 0 < s ∧ chunk.ops[e + 1]? = some (.const i) ∧ chunk.constants[i]? = some (.int s)) ∧
      chunk.ops[e + 2]? = some .checkedAdd ∧ chunk.ops[e + 3]? = some (.popN 2) ∧
      chunk.ops[e + 4]? = some (.setLocal var) := by
  unfold advancesAtTail at h
  split at h
  next g i s hops =>
    rw [Bool.and_eq_true, Bool.and_eq_true] at h
    obtain ⟨⟨hg, hs⟩, hstep⟩ := h
    cases eq_of_beq hg
    cases eq_of_beq hs
    have hat (k : ℕ) (op : Op) (hk : k < 5)
        (hop : [Op.getLocal var, .const i, .checkedAdd, .popN 2, .setLocal var][k]? = some op) :
        chunk.ops[e + k]? = some op := by
      rw [← hops, List.getElem?_take_of_lt hk, List.getElem?_drop, Nat.add_sub_cancel] at hop
      exact hop
    split at hstep
    next n hn =>
      exact ⟨hat 0 _ (by decide) rfl,
        ⟨i, n, of_decide_eq_true hstep, hat 1 _ (by decide) rfl, hn⟩, hat 2 _ (by decide) rfl,
        hat 3 _ (by decide) rfl, hat 4 _ (by decide) rfl⟩
    · cases hstep
  · cases h

/-- What the verifier has checked of the body of a counted loop. -/
theorem loopBodyAdvancesInduction_shape
    (h : loopBodyAdvancesInduction chunk l var limit = true)
    (hloop : chunk.ops[l]? = some (.loop (m + 1))) :
    ∃ e, m = e + 5 ∧ l + loopHeader ≤ e ∧ advancesAtTail chunk m var = true ∧
      (∀ p, l + loopHeader ≤ p → p < m → chunk.ops[p]? ≠ some (.setLocal limit)) ∧
      ((chunk.ops.drop (l + loopHeader)).take (m - (l + loopHeader))).count (.setLocal var) = 1 := by
  unfold loopBodyAdvancesInduction at h
  rw [hloop] at h
  simp only [Nat.add_sub_cancel] at h
  split at h
  · cases h
  split at h
  next t hend =>
    split at h
    · cases h
    next hroom =>
      rw [Bool.and_eq_true, Bool.and_eq_true] at h
      obtain ⟨⟨hlimit, hcount⟩, htail⟩ := h
      refine ⟨m - 5, by omega, by omega, htail, fun p hp hpm hset => ?_, eq_of_beq hcount⟩
      rw [Bool.not_eq_true', List.contains_eq_mem, decide_eq_false_iff_not] at hlimit
      refine hlimit (List.mem_of_getElem? (i := p - (l + loopHeader)) ?_)
      rw [List.getElem?_take_of_lt (by omega), List.getElem?_drop, Nat.add_sub_cancel' hp]
      exact hset
  · cases h

theorem rangeCount_eq {a b : ℤ} (h : rangeCount a b = some n) : n = (b - a).toNat := by
  unfold rangeCount at h
  split_ifs at h
  · exact (Option.some.inj h).symm
  · obtain rfl := Option.some.inj h
    omega

/-- What occurs once in a list occurs at one position. -/
theorem count_one_unique {ops : List Op} {op : Op} {i j : ℕ} (h : ops.count op = 1) (hij : i < j)
    (hi : ops[i]? = some op) (hj : ops[j]? = some op) : False := by
  have hfirst : 0 < (ops.take (i + 1)).count op := by
    refine List.count_pos_iff.mpr (List.mem_of_getElem? (i := i) ?_)
    rw [List.getElem?_take_of_lt (Nat.lt_succ_self i)]
    exact hi
  have hsecond : 0 < (ops.drop (i + 1)).count op := by
    refine List.count_pos_iff.mpr (List.mem_of_getElem? (i := j - (i + 1)) ?_)
    rw [List.getElem?_drop, Nat.add_sub_cancel' hij]
    exact hj
  rw [← List.take_append_drop (i + 1) ops, List.count_append] at h
  omega

/-- **The loop of which the verifier reads off a bound counts so far**: from what it traces the
variable back to, to what it traces the limit back to. -/
theorem forRange_of_bound (h : extractLoopIterationBound chunk l = some n)
    (hloop : chunk.ops[l]? = some (.loop (m + 1))) :
    ∃ e var limit s a b, m = e + 5 ∧ ForRange chunk l e var limit s ∧
      traceConstSetLocal chunk l var = some a ∧ traceConstSetLocal chunk l limit = some b ∧
      n = (b - a).toNat := by
  have htest := (extractLoopIterationBound_shape h hloop).1
  unfold extractLoopIterationBound at h
  split at h
  · cases h
  split at h
  next var limit k h₁ h₂ h₃ h₄ =>
    obtain ⟨stop, hstop, h⟩ := Option.bind_eq_some_iff.mp h
    obtain ⟨start, hstart, h⟩ := Option.bind_eq_some_iff.mp h
    split at h
    next hadv =>
      obtain ⟨e, rfl, hroom, htail, hlimit, hcount⟩ := loopBodyAdvancesInduction_shape hadv hloop
      obtain ⟨hreads, ⟨i, s, hpos, hstep, hs⟩, hadds, hdrops, hsets⟩ := advancesAtTail_shape htail
      refine ⟨e, var, limit, s, start, stop, rfl, ⟨htest, hroom, hloop, h₁, h₂, hreads,
        ⟨i, hstep, hs⟩, hpos, hadds, hdrops, hsets, fun p hp hlt hset => ?_, hlimit⟩,
        hstart, hstop, rangeCount_eq h⟩
      have hat {k : ℕ} (hlo : l + loopHeader ≤ k) (hhi : k < e + 5) :
          ((chunk.ops.drop (l + loopHeader)).take (e + 5 - (l + loopHeader)))[k -
            (l + loopHeader)]? = chunk.ops[k]? := by
        rw [List.getElem?_take_of_lt (by omega), List.getElem?_drop, Nat.add_sub_cancel' hlo]
      exact count_one_unique hcount (Nat.sub_lt_sub_right hp hlt)
        ((hat hp (by omega)).trans hset) ((hat (by omega) (Nat.lt_succ_self _)).trans hsets)
    · cases h
  · cases h

/-- `Stream` is not in the loop. -/
theorem ForRange.stream_outside {e p : ℕ} {s : ℤ} (hr : ForRange chunk l e var limit s)
    (ha : LoopApart chunk l) (hs : chunk.ops[p]? = some .stream) : p + 1 ≤ l ∨ e + 5 < p + 1 := by
  by_contra hnot
  push Not at hnot
  obtain ⟨hlo, hhi⟩ := hnot
  rcases (Nat.lt_succ_iff.mp hlo).eq_or_lt with rfl | hlt
  · cases hs.symm.trans hr.opens
  · exact ha.within (e + 5) p hr.opens hlt hhi hs

/-! ## Control in a counted loop -/

section Control

variable {e q q' : ℕ} {s : ℤ} {op : Op} (hr : ForRange chunk l e var limit s)
  (hw : WellNested chunk.ops)
include hr hw

/-- The test leaves the loop, its body is a region behind the test, and the loop is a block. -/
theorem ForRange.body : chunk.ops[l + 4]? = some (.breakIf (e + 6)) ∧
    Region Eq chunk.ops (some (e + 6)) (l + loopHeader) (e + 5) ∧
    chunk.ops[e + 5]? = some (.endLoop (l + 1)) ∧ Block chunk.ops l (e + 5) := by
  obtain ⟨e', -, he, hat, hbody⟩ :=
    (hw.loopsIn (List.getElem?_eq_some_iff.mp hr.opens).1).opens _ hr.opens
  obtain rfl : e + 5 = e' := Nat.succ.inj he
  have hroom := hr.room
  obtain ⟨htest, hrest⟩ := hr.test.split hbody (by omega)
  obtain ⟨k, hbreak⟩ := hr.test.breaks
  have hexit : some (e + 6) = some k := by
    unfold loopHeader at htest
    have h₂ := htest.tail_leaf (by omega) hr.readsVar rfl
    have h₃ := h₂.tail_leaf (by omega) hr.readsLimit rfl
    have h₄ := h₃.tail_leaf (by omega) hr.test.compares rfl
    exact (h₄.tail_breakIf (by omega) hbreak).1
  obtain rfl := Option.some.inj hexit
  refine ⟨hbreak, hrest, hat.closes, ⟨_, .inr hr.opens⟩, ?_⟩
  rw [closingAt, hbody.closing_eq, closing_zero hat.closes (.inr rfl)]

/-- **Where control goes from a position of the loop**: behind the loop, on through the test, about
in the body, or from the `EndLoop` back to the test. -/
theorem ForRange.flows (hlo : l ≤ q) (hhi : q ≤ e + 5) (hop : chunk.ops[q]? = some op)
    (hn : q' ∈ op.next q) :
    q' = e + 6 ∨ (q < l + loopHeader ∧ q' = q + 1) ∨
      (l + loopHeader ≤ q ∧ q < e + 5 ∧ l + loopHeader ≤ q' ∧ q' ≤ e + 5) ∨
      (q = e + 5 ∧ q' = l + 1) := by
  obtain ⟨hbreak, hbody, hend, -⟩ := hr.body hw
  have hroom := hr.room
  rcases Nat.lt_or_ge q (l + loopHeader) with hlt | hge
  · -- the `Loop` and the four instructions of the test
    have hq : q = l ∨ q = l + 1 ∨ q = l + 2 ∨ q = l + 3 ∨ q = l + 4 := by
      unfold loopHeader at hlt
      omega
    rcases hq with rfl | rfl | rfl | rfl | rfl
    · cases hr.opens.symm.trans hop
      exact .inr (.inl ⟨hlt, List.mem_singleton.mp hn⟩)
    · cases hr.readsVar.symm.trans hop
      exact .inr (.inl ⟨hlt, List.mem_singleton.mp hn⟩)
    · cases hr.readsLimit.symm.trans hop
      exact .inr (.inl ⟨hlt, List.mem_singleton.mp hn⟩)
    · cases hr.test.compares.symm.trans hop
      exact .inr (.inl ⟨hlt, List.mem_singleton.mp hn⟩)
    · cases hbreak.symm.trans hop
      rcases List.mem_cons.mp hn with rfl | hn
      · exact .inr (.inl ⟨hlt, rfl⟩)
      · exact .inl (List.mem_singleton.mp hn)
  · rcases hhi.lt_or_eq with hlt | rfl
    · rcases hbody.next_mem hge hlt hop hn with h | ⟨h, -⟩
      · exact .inr (.inr (.inl ⟨hge, hlt, h⟩))
      · exact .inl (Option.some.inj h).symm
    · cases hend.symm.trans hop
      exact .inr (.inr (.inr ⟨rfl, List.mem_singleton.mp hn⟩))

/-- The loop sets its variable and its limit nowhere but at the end of the body. -/
theorem ForRange.set_at {slot : ℕ} (hlo : l ≤ q) (hhi : q ≤ e + 5)
    (hop : chunk.ops[q]? = some (.setLocal slot)) (hs : slot = var ∨ slot = limit) : q = e + 4 := by
  obtain ⟨hbreak, -, hend, -⟩ := hr.body hw
  rcases Nat.lt_or_ge q (l + loopHeader) with hlt | hge
  · exfalso
    have hq : q = l ∨ q = l + 1 ∨ q = l + 2 ∨ q = l + 3 ∨ q = l + 4 := by
      unfold loopHeader at hlt
      omega
    rcases hq with rfl | rfl | rfl | rfl | rfl
    · cases hr.opens.symm.trans hop
    · cases hr.readsVar.symm.trans hop
    · cases hr.readsLimit.symm.trans hop
    · cases hr.test.compares.symm.trans hop
    · cases hbreak.symm.trans hop
  rcases hhi.lt_or_eq with hlt | rfl
  · rcases hs with rfl | rfl
    · by_contra hne
      exact hr.keepsVar q hge (by omega) hop
    · exact absurd hop (hr.keepsLimit q hge hlt)
  · cases hend.symm.trans hop

/-- Control comes into the loop only through its `Loop`. -/
theorem ForRange.enters (hop : chunk.ops[q]? = some op) (hn : q' ∈ op.next q) (hlo : l < q')
    (hhi : q' ≤ e + 5) : l ≤ q ∧ q ≤ e + 5 := by
  obtain ⟨-, -, -, hblock⟩ := hr.body hw
  by_cases hin : Inside l (e + 5) q
  · exact ⟨hin.1.le, hin.2⟩
  · have hroom := hr.room
    obtain rfl := (hw.transferOk hop hn).enters l (e + 5) hblock hin ⟨hlo, hhi⟩
    exact ⟨le_rfl, by omega⟩

end Control

end Keleusma
