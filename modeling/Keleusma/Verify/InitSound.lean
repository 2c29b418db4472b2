import Keleusma.Verify.Accepted

/-!
# The fixpoint of the must-analysis

The worklist of the must-analysis ends with sets that are closed under the control-flow edges:
the set at the end of an edge contains at most what the instruction at its start leaves
(`mustAnalysis_closed`). The invariant of the loop is that every edge is closed whose start is
not queued; a position whose set shrinks is queued again.
-/

namespace Keleusma

variable {ops : List Op} {transfer : Op → Bits → Bits}

/-- The set at a position is one that a path has brought there. -/
abbrev SetAt (sets : List (Option Bits)) (ip : ℕ) (B : Bits) : Prop := sets[ip]? = some (some B)

/-- The edges out of a position are closed. -/
def ClosedAt (ops : List Op) (transfer : Op → Bits → Bits) (sets : List (Option Bits)) (ip : ℕ) :
    Prop :=
  ∀ op B, ops[ip]? = some op → SetAt sets ip B → ∀ ip' ∈ op.next ip, ip' < ops.length →
    ∃ B', SetAt sets ip' B' ∧ B' ⊆ transfer op B

/-- A later state of the worklist: positions are queued when their sets change, and sets only
shrink. -/
structure MustState.Later (st st' : MustState) : Prop where
  length : st'.sets.length = st.sets.length
  work : ∀ j ∈ st.work, j ∈ st'.work
  changed : ∀ j, st'.sets[j]? = st.sets[j]? ∨ j ∈ st'.work
  shrinks : ∀ j B, SetAt st.sets j B → ∃ B', SetAt st'.sets j B' ∧ B' ⊆ B

theorem MustState.Later.refl (st : MustState) : st.Later st :=
  ⟨rfl, fun _ h => h, fun _ => .inl rfl, fun _ B h => ⟨B, h, List.Subset.refl _⟩⟩

theorem MustState.Later.trans {st₁ st₂ st₃ : MustState} (h : st₁.Later st₂) (h' : st₂.Later st₃) :
    st₁.Later st₃ where
  length := h'.length.trans h.length
  work j hj := h'.work j (h.work j hj)
  changed j := by
    rcases h'.changed j with he' | hw'
    · rcases h.changed j with he | hw
      · exact .inl (he'.trans he)
      · exact .inr (h'.work j hw)
    · exact .inr hw'
  shrinks j B hB := by
    obtain ⟨B₁, hB₁, hs₁⟩ := h.shrinks j B hB
    obtain ⟨B₂, hB₂, hs₂⟩ := h'.shrinks j B₁ hB₁
    exact ⟨B₂, hB₂, List.Subset.trans hs₂ hs₁⟩

theorem mem_queue {work : List ℕ} {dest : ℕ} :
    dest ∈ (if dest ∈ work then work else work ++ [dest]) := by
  split
  next h => exact h
  next h => exact List.mem_append_right _ (List.mem_singleton_self _)

theorem mem_of_mem_queue {work : List ℕ} {dest j : ℕ} (h : j ∈ work) :
    j ∈ (if dest ∈ work then work else work ++ [dest]) := by
  split
  · exact h
  · exact List.mem_append_left _ h

/-- **What an arrival does**: the set at the destination is contained in the one that arrives. -/
theorem MustState.arrive_later (st : MustState) (set : Bits) {dest : ℕ}
    (hd : dest < st.sets.length) :
    st.Later (st.arrive set dest) ∧ ∃ B', SetAt (st.arrive set dest).sets dest B' ∧ B' ⊆ set := by
  obtain ⟨cell, hcell⟩ : ∃ cell, st.sets[dest]? = some cell :=
    ⟨_, List.getElem?_eq_getElem hd⟩
  cases cell with
  | none =>
    have he : st.arrive set dest =
        ⟨st.sets.set dest (some set), if dest ∈ st.work then st.work else st.work ++ [dest]⟩ := by
      simp only [MustState.arrive, hcell]
    rw [he]
    refine ⟨⟨by simp, fun j hj => mem_of_mem_queue hj, fun j => ?_, fun j B hB => ?_⟩, set, ?_,
      List.Subset.refl _⟩
    · by_cases hj : dest = j
      · subst hj
        exact .inr mem_queue
      · exact .inl (List.getElem?_set_ne hj)
    · have hj : dest ≠ j := by
        rintro rfl
        rw [SetAt, hcell] at hB
        cases hB
      exact ⟨B, (List.getElem?_set_ne hj).trans hB, List.Subset.refl _⟩
    · exact List.getElem?_set_self hd
  | some old =>
    have he : st.arrive set dest = ⟨st.sets.set dest (some (old.filter (· ∈ set))),
        if (old.filter (· ∈ set)).length = old.length ∨ dest ∈ st.work then st.work
        else st.work ++ [dest]⟩ := by
      simp only [MustState.arrive, hcell]
    rw [he]
    refine ⟨⟨by simp, fun j hj => ?_, fun j => ?_, fun j B hB => ?_⟩,
      old.filter (· ∈ set), List.getElem?_set_self hd, fun i hi => ?_⟩
    · dsimp only
      split
      · exact hj
      · exact List.mem_append_left _ hj
    · by_cases hj : dest = j
      · subst hj
        dsimp only
        split
        next hor =>
          rcases hor with hlen | hmem
          · rw [List.length_filter_eq_length_iff] at hlen
            left
            rw [List.getElem?_set_self hd, hcell, List.filter_eq_self.mpr hlen]
          · exact .inr hmem
        · exact .inr (List.mem_append_right _ (List.mem_singleton_self _))
      · exact .inl (List.getElem?_set_ne hj)
    · by_cases hj : dest = j
      · subst hj
        rw [SetAt, hcell] at hB
        cases hB
        exact ⟨_, List.getElem?_set_self hd, fun i hi => (List.mem_filter.mp hi).1⟩
      · exact ⟨B, (List.getElem?_set_ne hj).trans hB, List.Subset.refl _⟩
    · simpa using (List.mem_filter.mp hi).2

/-- The successors of the analysis are the positions to which control may go. -/
theorem mem_successors {len ip ip' : ℕ} {op : Op} (h : ip' ∈ op.next ip) (hlt : ip' < len) :
    (successors len ip op).1 = some ip' ∨ (successors len ip op).2 = some ip' := by
  have hn : ip' = ip + 1 → (if ip + 1 < len then some (ip + 1) else none) = some ip' := by
    rintro rfl
    exact if_pos hlt
  cases op with
  | ifOp t | breakIf t =>
    rcases List.mem_cons.mp h with h | h
    · exact .inl (hn h)
    · obtain rfl := List.mem_singleton.mp h
      exact .inr (if_pos hlt)
  | elseOp t | endLoop t | «break» t =>
    obtain rfl := List.mem_singleton.mp h
    exact .inr (if_pos hlt)
  | «return» | trap _ | reset => cases h
  | _ => exact .inl (hn (List.mem_singleton.mp h))

/-- The invariant of the worklist. -/
structure MustInv (ops : List Op) (transfer : Op → Bits → Bits) (entry : Bits) (st : MustState) :
    Prop where
  length : st.sets.length = ops.length
  closed : ∀ ip, ip ∉ st.work → ClosedAt ops transfer st.sets ip
  entry : ∃ B, SetAt st.sets 0 B ∧ B ⊆ entry

/-- Edges stay closed while the sets at their ends shrink. -/
theorem ClosedAt.later {st st' : MustState} {ip : ℕ} (h : ClosedAt ops transfer st.sets ip)
    (hl : st.Later st') (hsame : st'.sets[ip]? = st.sets[ip]?) :
    ClosedAt ops transfer st'.sets ip := by
  intro op B hop hB ip' hnext hlt
  rw [SetAt, hsame] at hB
  obtain ⟨B₁, hB₁, hs₁⟩ := h op B hop hB ip' hnext hlt
  obtain ⟨B₂, hB₂, hs₂⟩ := hl.shrinks ip' B₁ hB₁
  exact ⟨B₂, hB₂, List.Subset.trans hs₂ hs₁⟩

theorem MustState.arriveOption_later (st : MustState) (set : Bits) (dest : Option ℕ)
    (hd : ∀ d, dest = some d → d < st.sets.length) :
    st.Later (dest.elim st (st.arrive set)) ∧
      ∀ d, dest = some d → ∃ B', SetAt (dest.elim st (st.arrive set)).sets d B' ∧ B' ⊆ set := by
  cases dest with
  | none => exact ⟨.refl st, nofun⟩
  | some d =>
    obtain ⟨hl, hB⟩ := st.arrive_later set (hd d rfl)
    exact ⟨hl, fun d' h => by cases h; exact hB⟩

theorem successors_lt {len ip : ℕ} {op : Op} {d : ℕ}
    (h : (successors len ip op).1 = some d ∨ (successors len ip op).2 = some d) : d < len := by
  have hn : ∀ k, (if k < len then some k else none) = some d → d < len := by
    intro k hk
    split at hk
    · cases hk; assumption
    · cases hk
  cases op <;> rcases h with h | h <;> first | exact hn _ h | cases h

/-- A visit: a position is taken from the queue, wherever it stands there, and what its
instruction leaves arrives at its successors. -/
def MustState.visit (ops : List Op) (transfer : Op → Bits → Bits) (st : MustState) (ip : ℕ) :
    MustState :=
  let st₁ : MustState := { st with work := st.work.erase ip }
  match ops[ip]?, st.sets[ip]? with
  | some op, some (some set) =>
    let st₂ := (successors ops.length ip op).1.elim st₁ (st₁.arrive (transfer op set))
    (successors ops.length ip op).2.elim st₂ (st₂.arrive (transfer op set))
  | _, _ => st₁

/-- The loop visits the position at the front of the queue. -/
theorem mustLoop_cons {fuel ip : ℕ} {sets : List (Option Bits)} {work : List ℕ} :
    mustLoop ops transfer (fuel + 1) ⟨sets, ip :: work⟩ =
      mustLoop ops transfer fuel (MustState.visit ops transfer ⟨sets, ip :: work⟩ ip) := by
  simp only [mustLoop, MustState.visit, List.erase_cons_head]
  generalize ops[ip]? = found, sets[ip]? = cell
  rcases found with _ | op <;> rcases cell with _ | _ | set <;> rfl

theorem MustState.visit_eq {st : MustState} {ip : ℕ} {op : Op} {B : Bits}
    (hop : ops[ip]? = some op) (hB : SetAt st.sets ip B) :
    st.visit ops transfer ip =
      let st₁ : MustState := { st with work := st.work.erase ip }
      let st₂ := (successors ops.length ip op).1.elim st₁ (st₁.arrive (transfer op B))
      (successors ops.length ip op).2.elim st₂ (st₂.arrive (transfer op B)) := by
  simp only [MustState.visit, hop, show st.sets[ip]? = some (some B) from hB]

/-- A position without a set is only taken from the queue. -/
theorem MustState.visit_eq_erase {st : MustState} {ip : ℕ}
    (h : ∀ op B, ops[ip]? = some op → ¬ SetAt st.sets ip B) :
    st.visit ops transfer ip = { st with work := st.work.erase ip } := by
  rw [MustState.visit]
  rcases hop : ops[ip]? with _ | op
  · rfl
  rcases hB : st.sets[ip]? with _ | _ | B
  · rfl
  · rfl
  · exact absurd hB (h op B hop)

/-- The sets only shrink in a visit, and what leaves the position is above the sets of its
successors. -/
theorem MustState.visit_arrived {st : MustState} {ip : ℕ} {op : Op} {B : Bits}
    (hlen : st.sets.length = ops.length) (hop : ops[ip]? = some op) (hB : SetAt st.sets ip B) :
    MustState.Later { st with work := st.work.erase ip } (st.visit ops transfer ip) ∧
      ∀ ip' ∈ op.next ip, ip' < ops.length →
        ∃ B', SetAt (st.visit ops transfer ip).sets ip' B' ∧ B' ⊆ transfer op B := by
  rw [MustState.visit_eq hop hB]
  let st₁ : MustState := { st with work := st.work.erase ip }
  let st₂ := (successors ops.length ip op).1.elim st₁ (st₁.arrive (transfer op B))
  obtain ⟨hl₁, harr₁⟩ := st₁.arriveOption_later (transfer op B) (successors ops.length ip op).1
    fun d hd => hlen ▸ successors_lt (.inl hd)
  have hlen₂ : st₂.sets.length = ops.length := hl₁.length.trans hlen
  obtain ⟨hl₂, harr₂⟩ := st₂.arriveOption_later (transfer op B) (successors ops.length ip op).2
    fun d hd => hlen₂ ▸ successors_lt (.inr hd)
  refine ⟨hl₁.trans hl₂, fun ip' hnext hlt => ?_⟩
  rcases mem_successors hnext hlt with hs | hs
  · obtain ⟨B₁, hB₁, hs₁⟩ := harr₁ ip' hs
    obtain ⟨B₂, hB₂, hs₂⟩ := hl₂.shrinks ip' B₁ hB₁
    exact ⟨B₂, hB₂, List.Subset.trans hs₂ hs₁⟩
  · exact harr₂ ip' hs

theorem MustState.visit_later {st : MustState} (hlen : st.sets.length = ops.length) (ip : ℕ) :
    MustState.Later { st with work := st.work.erase ip } (st.visit ops transfer ip) := by
  by_cases hset : ∃ op B, ops[ip]? = some op ∧ SetAt st.sets ip B
  · obtain ⟨op, B, hop, hB⟩ := hset
    exact (visit_arrived hlen hop hB).1
  · rw [MustState.visit_eq_erase fun op B hop hB => hset ⟨op, B, hop, hB⟩]
    exact .refl _

/-- A visit keeps the invariant. -/
theorem MustInv.visit {entry : Bits} {st : MustState} (h : MustInv ops transfer entry st)
    (ip : ℕ) : MustInv ops transfer entry (st.visit ops transfer ip) := by
  have hl : MustState.Later ⟨st.sets, st.work.erase ip⟩ (st.visit ops transfer ip) :=
    MustState.visit_later h.length ip
  refine ⟨hl.length.trans h.length, fun j hj => ?_, ?_⟩
  · have hsame : _ = st.sets[j]? := (hl.changed j).resolve_right hj
    by_cases hji : j = ip
    · -- the position just worked off: its set has arrived at every successor
      subst hji
      intro op B hop hB ip' hnext hlt
      rw [SetAt, hsame] at hB
      exact (MustState.visit_arrived h.length hop hB).2 ip' hnext hlt
    · have hj' : j ∉ st.work := fun hmem => hj (hl.work j ((List.mem_erase_of_ne hji).mpr hmem))
      have hclosed : ClosedAt ops transfer (MustState.mk st.sets (st.work.erase ip)).sets j :=
        h.closed j hj'
      exact hclosed.later hl hsame
  · obtain ⟨B₀, hB₀, hs₀⟩ := h.entry
    obtain ⟨B₁, hB₁, hs₁⟩ := hl.shrinks 0 B₀ hB₀
    exact ⟨B₁, hB₁, List.Subset.trans hs₁ hs₀⟩

theorem mustLoop_inv {entry : Bits} {fuel : ℕ} {st : MustState} {sets : List (Option Bits)}
    (h : MustInv ops transfer entry st) (hr : mustLoop ops transfer fuel st = some sets) :
    MustInv ops transfer entry ⟨sets, []⟩ := by
  induction fuel generalizing st with
  | zero => cases hr
  | succ fuel ih =>
    obtain ⟨sets₀, work₀⟩ := st
    cases work₀ with
    | nil =>
      cases hr
      exact h
    | cons ip work => exact ih (h.visit ip) (mustLoop_cons ▸ hr)

/-- The state in which the analysis begins: only the first position has a set. -/
def MustState.start (ops : List Op) (entry : Bits) : MustState :=
  match ops with
  | [] => ⟨[], []⟩
  | _ :: rest => ⟨some entry :: List.replicate rest.length none, [0]⟩

theorem MustInv.start (hne : ops ≠ []) (entry : Bits) :
    MustInv ops transfer entry (.start ops entry) := by
  cases ops with
  | nil => exact absurd rfl hne
  | cons op rest =>
    refine ⟨by simp [MustState.start], fun ip hip => ?_, entry, rfl, List.Subset.refl _⟩
    intro op' B _ hB
    cases ip with
    | zero => exact absurd (List.mem_singleton_self _) hip
    | succ ip =>
      rw [SetAt, MustState.start, List.getElem?_cons_succ, List.getElem?_replicate] at hB
      split at hB <;> cases hB

/-- **The result of the must-analysis is closed under the control-flow edges.** -/
theorem mustAnalysis_closed {width : ℕ} {entry : Bits} {sets : List (Option Bits)}
    (hr : mustAnalysis ops width entry transfer = some sets) (hne : ops ≠ []) :
    (∀ ip, ClosedAt ops transfer sets ip) ∧ ∃ B, SetAt sets 0 B ∧ B ⊆ entry := by
  cases ops with
  | nil => exact absurd rfl hne
  | cons op rest =>
    have h := mustLoop_inv (MustInv.start hne entry) hr
    exact ⟨fun ip => h.closed ip List.not_mem_nil, h.entry⟩

/-! ## Reachable positions -/

/-- The positions that control can reach from the entry of a chunk. -/
inductive CfgReaches (ops : List Op) : ℕ → Prop
  | entry : CfgReaches ops 0
  | edge {ip ip' op} (h : CfgReaches ops ip) (hop : ops[ip]? = some op) (hn : ip' ∈ op.next ip) :
      CfgReaches ops ip'

/-- Every reachable position has a set. -/
theorem CfgReaches.setAt {width : ℕ} {entry : Bits} {sets : List (Option Bits)} {ip : ℕ}
    (h : CfgReaches ops ip) (hr : mustAnalysis ops width entry transfer = some sets)
    (hlt : ip < ops.length) : ∃ B, SetAt sets ip B := by
  have hne : ops ≠ [] := List.ne_nil_of_length_pos (by omega)
  obtain ⟨hclosed, hentry⟩ := mustAnalysis_closed hr hne
  induction h with
  | entry =>
    obtain ⟨B, hB, -⟩ := hentry
    exact ⟨B, hB⟩
  | edge hprev hop hn ih =>
    obtain ⟨B, hB⟩ := ih (List.getElem?_eq_some_iff.mp hop).1
    obtain ⟨B', hB', -⟩ := hclosed _ _ B hop hB _ hn hlt
    exact ⟨B', hB'⟩

/-! ## Local slots -/

theorem checkLocals_sets {chunk : Chunk} (h : checkLocals chunk = .ok ()) :
    ∃ sets, localAnalysis chunk = some sets ∧
      forEachOp (checkLocalRead chunk sets) 0 chunk.ops = .ok () := by
  unfold checkLocals at h
  split at h
  · cases h
  next sets hsets => exact ⟨sets, hsets, h⟩

/-- A read of a local slot that the analysis has reached reads a slot of its set. -/
theorem ChunkAccepted.read_mem {m : Module} {chunk : Chunk} {sets : List (Option Bits)}
    (h : ChunkAccepted m chunk) (hsets : localAnalysis chunk = some sets) {ip slot : ℕ} {B : Bits}
    (hop : chunk.ops[ip]? = some (.getLocal slot)) (hB : SetAt sets ip B) : slot ∈ B := by
  obtain ⟨sets', hsets', hcheck⟩ := checkLocals_sets h.locals
  cases hsets.symm.trans hsets'
  have hread := forEachOp_eq_ok hcheck hop
  rw [Nat.zero_add] at hread
  have hslot := h.slot_lt hop (.inl rfl)
  by_contra hmem
  simp only [checkLocalRead, hB, hslot, hmem, not_false_eq_true, and_self, if_true] at hread
  cases hread

end Keleusma
