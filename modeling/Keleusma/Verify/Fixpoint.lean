import Keleusma.Logic.Descent
import Keleusma.Verify.InitSound
import Mathlib.Algebra.BigOperators.Group.List.Basic
import Mathlib.Algebra.Group.Action.Defs
import Mathlib.Data.List.Nodup
import Mathlib.Data.List.Perm.Subperm
import Mathlib.Order.Antisymmetrization

/-!
# The greatest solution of the must-analysis

The equations of the analysis say that the set before an instruction is the intersection of what
its predecessors leave, and of the entry set at the first instruction; a position without
predecessors is at the top, where no path has arrived. The worklist ends, and its result is the
greatest solution (`mustAnalysis_greatest`), in whatever order the queue is worked off: every visit
is a step of the descent, and the work that is left gets less.
-/

namespace Keleusma

/-- A set of slots out of a list of slots. -/
def Within (slots B : Bits) : Prop := B.Nodup ∧ B ⊆ slots

/-- What the instructions do to the sets of some slots: what is written on more paths before an
instruction is written on more paths after it. -/
structure Transfer (slots : Bits) where
  apply : Op → Bits → Bits
  mono : ∀ op {B B' : Bits}, B ⊆ B' → apply op B ⊆ apply op B'
  within : ∀ op {B : Bits}, Within slots B → Within slots (apply op B)

/-- What is known before an instruction, `none` as long as no path has arrived there. -/
def Cell : Type := Option Bits

/-- The fewer slots, the less is known; at the top all is. -/
instance : Preorder Cell where
  le a b := ∀ B, b = some B → ∃ A, a = some A ∧ A ⊆ B
  le_refl _ B hB := ⟨B, hB, List.Subset.refl B⟩
  le_trans a b c hab hbc C hC := by
    obtain ⟨B, hB, hBC⟩ := hbc C hC
    obtain ⟨A, hA, hAB⟩ := hab B hB
    exact ⟨A, hA, List.Subset.trans hAB hBC⟩

namespace Cell

theorem le_some {a : Cell} {B : Bits} : a ≤ some B ↔ ∃ A, a = some A ∧ A ⊆ B :=
  ⟨fun h => h B rfl, fun h C hC => by cases hC; exact h⟩

/-- No path has arrived. -/
def top : Cell := none

theorem le_top (a : Cell) : a ≤ top := fun _ h => nomatch h

theorem eq_top {a : Cell} (h : top ≤ a) : a = top := by
  rcases a with _ | B
  · rfl
  · obtain ⟨A, hA, -⟩ := le_some.mp h
    cases hA

end Cell

/-- What the sets of the worklist say about the positions. -/
def cells (sets : List (Option Bits)) (ip : ℕ) : Cell := sets[ip]?.join

theorem cells_eq_some {sets : List (Option Bits)} {ip : ℕ} {B : Bits} :
    cells sets ip = some B ↔ SetAt sets ip B := Option.join_eq_some_iff

/-- The entry set arrives at the first instruction. -/
def entryCell : List Op → Bits → ℕ → Cell
  | _ :: _, entry, 0 => some entry
  | _, _, _ => none

variable {ops : List Op} {slots : Bits} {t : Transfer slots}

/-- The equations of the analysis. -/
def mustFlow (ops : List Op) (t : Transfer slots) (entry : Bits) : FlowGraph ℕ Cell where
  Edge ip ip' := ∃ op, ops[ip]? = some op ∧ ip' ∈ op.next ip ∧ ip' < ops.length
  input := entryCell ops entry
  transfer ip c := ops[ip]?.elim none fun op => Option.map (t.apply op) c
  mono ip a b hab := by
    rcases ops[ip]? with _ | op
    · exact le_rfl
    · rintro _ hB
      obtain ⟨B, rfl, rfl⟩ := Option.map_eq_some_iff.mp hB
      obtain ⟨A, rfl, hA⟩ := Cell.le_some.mp hab
      exact ⟨_, rfl, t.mono op hA⟩

theorem mustFlow_transfer {entry B : Bits} {ip : ℕ} {op : Op} {sets : List (Option Bits)}
    (hop : ops[ip]? = some op) (hB : SetAt sets ip B) :
    (mustFlow ops t entry).transfer ip (cells sets ip) = some (t.apply op B) := by
  simp only [mustFlow, hop, cells_eq_some.mpr hB, Option.map_some]
  rfl

theorem mustFlow_transfer_top {entry : Bits} (ip : ℕ) :
    (mustFlow ops t entry).transfer ip Cell.top = Cell.top := by
  simp only [mustFlow]
  rcases ops[ip]? with _ | op <;> rfl

/-! ## The descent -/

theorem MustState.Later.cells_le {st st' : MustState} (h : st.Later st') :
    cells st'.sets ≤ cells st.sets := by
  intro ip B hB
  obtain ⟨A, hA, hAB⟩ := h.shrinks ip B (cells_eq_some.mp hB)
  exact ⟨A, cells_eq_some.mpr hA, hAB⟩

/-- **An arrival lets through** what is below the set at the destination and the one that
arrives. -/
theorem MustState.le_arrive {st : MustState} {set : Bits} {dest ip : ℕ} {a : Cell}
    (ha : a ≤ cells st.sets ip) (hset : ip = dest → a ≤ some set) :
    a ≤ cells (st.arrive set dest).sets ip := by
  by_cases hd : ip = dest
  · subst hd
    obtain ⟨A, rfl, hA⟩ := Cell.le_some.mp (hset rfl)
    intro B hB
    refine ⟨A, rfl, ?_⟩
    rw [cells_eq_some, SetAt, MustState.arrive] at hB
    rcases hcell : st.sets[ip]? with _ | _ | old
    · simp only [hcell] at hB
      cases hB
    · simp only [hcell, List.getElem?_set_self (List.getElem?_eq_some_iff.mp hcell).1] at hB
      cases hB
      exact hA
    · simp only [hcell, List.getElem?_set_self (List.getElem?_eq_some_iff.mp hcell).1] at hB
      cases hB
      obtain ⟨A', hA', hold⟩ := ha old (cells_eq_some.mpr hcell)
      cases hA'
      intro i hi
      exact List.mem_filter.mpr ⟨hold hi, decide_eq_true (hA hi)⟩
  · have hsame : (st.arrive set dest).sets[ip]? = st.sets[ip]? := by
      rw [MustState.arrive]
      rcases st.sets[dest]? with _ | _ | old
      · rfl
      · exact List.getElem?_set_ne (Ne.symm hd)
      · exact List.getElem?_set_ne (Ne.symm hd)
    rwa [cells, hsame]

theorem MustState.le_arriveOption {st : MustState} {set : Bits} {dest : Option ℕ} {ip : ℕ}
    {a : Cell} (ha : a ≤ cells st.sets ip) (hset : dest = some ip → a ≤ some set) :
    a ≤ cells (dest.elim st (st.arrive set)).sets ip := by
  cases dest with
  | none => exact ha
  | some d => exact MustState.le_arrive ha fun h => hset (h ▸ rfl)

/-- Control may go to the successors of the analysis. -/
theorem mem_next_of_successors {len ip ip' : ℕ} {op : Op}
    (h : (successors len ip op).1 = some ip' ∨ (successors len ip op).2 = some ip') :
    ip' ∈ op.next ip := by
  have hif {k : ℕ} (hk : (if k < len then some k else none) = some ip') : ip' = k := by
    split at hk
    · exact (Option.some.inj hk).symm
    · cases hk
  cases op with
  | ifOp k | breakIf k =>
    rcases h with h | h
    · exact List.mem_cons.mpr (.inl (hif h))
    · exact List.mem_cons.mpr (.inr (List.mem_singleton.mpr (hif h)))
  | elseOp k | endLoop k | «break» k =>
    rcases h with h | h
    · cases h
    · exact List.mem_singleton.mpr (hif h)
  | «return» | trap _ | reset => rcases h with h | h <;> cases h
  | _ =>
    rcases h with h | h
    · exact List.mem_singleton.mpr (hif h)
    · cases h

/-- **A visit is a step of the descent.** -/
theorem MustState.visit_descended {entry : Bits} {st : MustState} {ip : ℕ}
    (hlen : st.sets.length = ops.length) (h : (mustFlow ops t entry).Descended (cells st.sets)) :
    (mustFlow ops t entry).Descended (cells (st.visit ops t.apply ip).sets) := by
  by_cases hset : ∃ op B, ops[ip]? = some op ∧ SetAt st.sets ip B
  · obtain ⟨op, B, hop, hB⟩ := hset
    refine h.step (visit_later hlen ip).cells_le fun ip' a ha harrives => ?_
    have harrives' (hs : (successors ops.length ip op).1 = some ip' ∨
        (successors ops.length ip op).2 = some ip') : a ≤ some (t.apply op B) :=
      mustFlow_transfer hop hB ▸ harrives ip ⟨op, hop, mem_next_of_successors hs, successors_lt hs⟩
    rw [MustState.visit_eq hop hB]
    exact le_arriveOption (le_arriveOption ha fun hs => harrives' (.inl hs))
      fun hs => harrives' (.inr hs)
  · rw [MustState.visit_eq_erase fun op B hop hB => hset ⟨op, B, hop, hB⟩]
    exact h

theorem cells_start (ops : List Op) (entry : Bits) :
    cells (MustState.start ops entry).sets = entryCell ops entry := by
  funext ip
  rcases ops with _ | ⟨op, rest⟩
  · rfl
  · cases ip with
    | zero => rfl
    | succ ip =>
      rw [cells, MustState.start, List.getElem?_cons_succ, List.getElem?_replicate]
      split <;> rfl

/-- Working off the queue in some order, with the number of visits. -/
inductive Visits (ops : List Op) (transfer : Op → Bits → Bits) :
    MustState → ℕ → MustState → Prop
  | done (st : MustState) : Visits ops transfer st 0 st
  | visit {st st' : MustState} {n ip : ℕ} (hip : ip ∈ st.work)
      (h : Visits ops transfer (st.visit ops transfer ip) n st') : Visits ops transfer st (n + 1) st'

/-! ## The work that is left -/

/-- How often the set at a position can still change. -/
def cellRank (width : ℕ) : Option Bits → ℕ
  | none => width + 2
  | some B => B.length + 1

/-- A bound on the visits that are left. -/
def MustState.potential (width : ℕ) (st : MustState) : ℕ :=
  (st.sets.map (cellRank width)).sum + st.work.length

/-- Every set is one out of the slots. -/
def MustState.Bounded (slots : Bits) (st : MustState) : Prop :=
  ∀ ip B, SetAt st.sets ip B → Within slots B

theorem Within.length_le {B : Bits} (h : Within slots B) : B.length ≤ slots.length :=
  (h.1.subperm h.2).length_le

theorem Within.filter {B : Bits} (h : Within slots B) (p : ℕ → Bool) : Within slots (B.filter p) :=
  ⟨h.1.filter p, fun _ hi => h.2 (List.mem_filter.mp hi).1⟩

theorem sum_map_set (width : ℕ) {i : ℕ} {sets : List (Option Bits)} {old : Option Bits}
    (h : sets[i]? = some old) (new : Option Bits) :
    ((sets.set i new).map (cellRank width)).sum + cellRank width old =
      (sets.map (cellRank width)).sum + cellRank width new := by
  induction sets generalizing i with
  | nil => cases h
  | cons c sets ih =>
    cases i with
    | zero =>
      cases h
      simp only [List.set_cons_zero, List.map_cons, List.sum_cons]
      omega
    | succ i =>
      have := ih h
      simp only [List.set_cons_succ, List.map_cons, List.sum_cons]
      omega

/-- **An arrival adds no work** that the change of a set does not pay for. -/
theorem MustState.arrive_potential {st : MustState} {set : Bits} (hst : st.Bounded slots)
    (hset : Within slots set) (dest : ℕ) :
    (st.arrive set dest).Bounded slots ∧
      (st.arrive set dest).potential slots.length ≤ st.potential slots.length := by
  have hbound {new : Bits} (hnew : Within slots new) {work : List ℕ} :
      (MustState.mk (st.sets.set dest (some new)) work).Bounded slots := by
    intro ip B hB
    by_cases hd : dest = ip
    · subst hd
      have hlt := (List.getElem?_eq_some_iff.mp hB).1
      rw [List.length_set] at hlt
      rw [SetAt, List.getElem?_set_self hlt] at hB
      cases hB
      exact hnew
    · rw [SetAt, List.getElem?_set_ne hd] at hB
      exact hst ip B hB
  rw [arrive]
  rcases hcell : st.sets[dest]? with _ | _ | old
  · exact ⟨hst, le_rfl⟩
  · refine ⟨hbound hset, ?_⟩
    have hsum := sum_map_set slots.length hcell (some set)
    have hlen := hset.length_le
    simp only [potential, cellRank] at hsum ⊢
    split_ifs
    · omega
    · rw [List.length_append, List.length_singleton]
      omega
  · have hmet := (hst dest old hcell).filter (· ∈ set)
    refine ⟨hbound hmet, ?_⟩
    have hsum := sum_map_set slots.length hcell (some (old.filter (· ∈ set)))
    have hlen := List.length_filter_le (· ∈ set) old
    simp only [potential, cellRank] at hsum ⊢
    split_ifs with hsame
    · omega
    · rw [List.length_append, List.length_singleton]
      have hne : (old.filter (· ∈ set)).length ≠ old.length := fun h => hsame (.inl h)
      omega

theorem MustState.arriveOption_potential {st : MustState} {set : Bits} (hst : st.Bounded slots)
    (hset : Within slots set) (dest : Option ℕ) :
    (dest.elim st (st.arrive set)).Bounded slots ∧
      (dest.elim st (st.arrive set)).potential slots.length ≤ st.potential slots.length := by
  cases dest with
  | none => exact ⟨hst, le_rfl⟩
  | some d => exact arrive_potential hst hset d

/-- **A visit leaves less work.** -/
theorem MustState.visit_potential (ops : List Op) (t : Transfer slots) {st : MustState} {ip : ℕ}
    (hst : st.Bounded slots) (hip : ip ∈ st.work) :
    (st.visit ops t.apply ip).Bounded slots ∧
      (st.visit ops t.apply ip).potential slots.length < st.potential slots.length := by
  let st₁ : MustState := { st with work := st.work.erase ip }
  have hst₁ : st₁.Bounded slots := hst
  have hless : st₁.potential slots.length < st.potential slots.length := by
    have hlen := List.length_erase_of_mem hip
    have hpos := List.length_pos_of_mem hip
    have hwork : (st.work.erase ip).length < st.work.length := by omega
    exact Nat.add_lt_add_left hwork _
  by_cases hset : ∃ op B, ops[ip]? = some op ∧ SetAt st.sets ip B
  · obtain ⟨op, B, hop, hB⟩ := hset
    rw [MustState.visit_eq hop hB]
    have hleaves := t.within op (hst ip B hB)
    obtain ⟨hst₂, hle₂⟩ := arriveOption_potential hst₁ hleaves (successors ops.length ip op).1
    obtain ⟨hst₃, hle₃⟩ := arriveOption_potential hst₂ hleaves (successors ops.length ip op).2
    exact ⟨hst₃, (hle₃.trans hle₂).trans_lt hless⟩
  · rw [MustState.visit_eq_erase fun op B hop hB => hset ⟨op, B, hop, hB⟩]
    exact ⟨hst₁, hless⟩

/-! ## The runs of the worklist -/

/-- What holds throughout the analysis. -/
structure Descending (ops : List Op) (t : Transfer slots) (entry : Bits) (st : MustState) :
    Prop where
  inv : MustInv ops t.apply entry st
  descended : (mustFlow ops t entry).Descended (cells st.sets)
  bounded : st.Bounded slots

theorem Descending.start (hne : ops ≠ []) {entry : Bits} (hentry : Within slots entry) :
    Descending ops t entry (.start ops entry) where
  inv := .start hne entry
  descended := cells_start ops entry ▸ FlowGraph.Descended.start
  bounded := by
    intro ip B hB
    rw [← cells_eq_some, cells_start] at hB
    rcases ops with _ | ⟨op, rest⟩
    · cases hB
    · rcases ip with _ | ip <;> cases hB
      exact hentry

theorem Descending.visit {entry : Bits} {st : MustState} (h : Descending ops t entry st) {ip : ℕ}
    (hip : ip ∈ st.work) : Descending ops t entry (st.visit ops t.apply ip) where
  inv := h.inv.visit ip
  descended := MustState.visit_descended h.inv.length h.descended
  bounded := (MustState.visit_potential ops t h.bounded hip).1

/-- What holds in a run, by induction on the visits. -/
theorem Visits.descending {entry : Bits} {st st' : MustState} {n : ℕ}
    (hv : Visits ops t.apply st n st') (h : Descending ops t entry st) :
    Descending ops t entry st' ∧
      n + st'.potential slots.length ≤ st.potential slots.length := by
  induction hv with
  | done st => exact ⟨h, by omega⟩
  | visit hip _ ih =>
    obtain ⟨h', hn⟩ := ih (h.visit hip)
    have hless := (MustState.visit_potential ops t h.bounded hip).2
    exact ⟨h', by omega⟩

/-- **With enough fuel the loop works off the queue.** -/
theorem mustLoop_visits {entry : Bits} {fuel : ℕ} {st : MustState}
    (h : Descending ops t entry st) (hfuel : st.potential slots.length < fuel) :
    ∃ n sets, mustLoop ops t.apply fuel st = some sets ∧ Visits ops t.apply st n ⟨sets, []⟩ := by
  induction fuel generalizing st with
  | zero => exact absurd hfuel (Nat.not_lt_zero _)
  | succ fuel ih =>
    obtain ⟨sets, work⟩ := st
    cases work with
    | nil => exact ⟨0, sets, rfl, .done _⟩
    | cons ip work =>
      have hip : ip ∈ ip :: work := List.mem_cons_self
      have hless := (MustState.visit_potential ops t h.bounded hip).2
      obtain ⟨n, sets', hloop, hvisits⟩ := ih (h.visit hip) (by omega)
      exact ⟨n + 1, sets', mustLoop_cons.trans hloop, .visit hip hvisits⟩

/-- Where the queue is empty the sets are closed. -/
theorem Descending.closed {entry : Bits} {sets : List (Option Bits)}
    (h : Descending ops t entry ⟨sets, []⟩) : (mustFlow ops t entry).Closed (cells sets) := by
  intro ip
  rw [FlowGraph.mem_lowerBounds_arriving]
  constructor
  · obtain ⟨B, hB, hentry⟩ := h.inv.entry
    rcases ops with _ | ⟨op, rest⟩
    · exact Cell.le_top _
    · cases ip with
      | zero => exact Cell.le_some.mpr ⟨B, cells_eq_some.mpr hB, hentry⟩
      | succ ip => exact Cell.le_top _
  · rintro p ⟨op, hop, hnext, hlt⟩
    rcases hB : cells sets p with _ | B
    · rw [show (none : Option Bits) = Cell.top from rfl, mustFlow_transfer_top]
      exact Cell.le_top _
    · have hB' := cells_eq_some.mp hB
      obtain ⟨B', hset, hsub⟩ := h.inv.closed p List.not_mem_nil op B hop hB' ip hnext hlt
      rw [← hB, mustFlow_transfer hop hB']
      exact Cell.le_some.mpr ⟨B', cells_eq_some.mpr hset, hsub⟩

theorem potential_start_le (ops : List Op) {entry : Bits} (hentry : Within slots entry) :
    (MustState.start ops entry).potential slots.length ≤ ops.length * (slots.length + 2) := by
  rcases ops with _ | ⟨op, rest⟩
  · exact Nat.zero_le _
  · have hlen := hentry.length_le
    simp only [MustState.potential, MustState.start, List.map_cons, List.map_replicate,
      List.sum_cons, List.sum_replicate, cellRank, List.length_cons, List.length_nil, smul_eq_mul,
      Nat.add_mul]
    omega

/-! ## The result -/

theorem mustAnalysis_eq (width : ℕ) (entry : Bits) (transfer : Op → Bits → Bits) :
    mustAnalysis ops width entry transfer =
      mustLoop ops transfer (mustFuel ops width) (.start ops entry) := by
  rcases ops with _ | ⟨op, rest⟩
  · rfl
  · rfl

/-- No path leads to a position whose predecessors no path reaches. -/
theorem not_cfgReaches {entry : Bits} {p ip : ℕ} (h : ¬ CfgReaches ops ip)
    (hedge : (mustFlow ops t entry).Edge p ip) : ¬ CfgReaches ops p := by
  obtain ⟨op, hop, hnext, -⟩ := hedge
  exact fun hp => h (hp.edge hop hnext)

/-- The analysis ends, and what holds throughout holds of its result. -/
theorem mustAnalysis_descending (hne : ops ≠ []) (t : Transfer slots) {entry : Bits}
    (hentry : Within slots entry) :
    ∃ sets, mustAnalysis ops slots.length entry t.apply = some sets ∧
      Descending ops t entry ⟨sets, []⟩ := by
  have hstart : Descending ops t entry (.start ops entry) := .start hne hentry
  have hfuel : (MustState.start ops entry).potential slots.length < mustFuel ops slots.length :=
    Nat.lt_succ_of_le (potential_start_le ops hentry)
  obtain ⟨n, sets, hloop, hvisits⟩ := mustLoop_visits hstart hfuel
  exact ⟨sets, (mustAnalysis_eq _ _ _).trans hloop, (hvisits.descending hstart).1⟩

/-- The sets of a chunk without instructions. -/
theorem isGreatest_nil {entry : Bits} :
    IsGreatest {X | (mustFlow [] t entry).Solves X} (cells []) := by
  refine FlowGraph.Descended.isGreatest (cells_start [] entry ▸ .start) fun ip => ?_
  rw [FlowGraph.mem_lowerBounds_arriving]
  refine ⟨Cell.le_top _, ?_⟩
  rintro p ⟨op, hop, -⟩
  cases hop

/-- **The must-analysis ends with the greatest solution** of its equations, in whatever order the
queue is worked off, and leaves the unreachable positions at the top. -/
theorem mustAnalysis_greatest (ops : List Op) {slots : Bits} (t : Transfer slots)
    (entry : {B : Bits // Within slots B}) :
    ∃ sets, mustAnalysis ops slots.length entry t.apply = some sets ∧
      IsGreatest {X | (mustFlow ops t entry).Solves X} (cells sets) ∧
      (∀ ip < ops.length, sets[ip]? = some none ↔ ¬ CfgReaches ops ip) ∧
      ∀ n st, Visits ops t.apply (.start ops entry) n st →
        n ≤ ops.length * (slots.length + 2) ∧
          (st.work = [] → AntisymmRel (· ≤ ·) (cells st.sets) (cells sets)) := by
  obtain ⟨entry, hentry⟩ := entry
  by_cases hne : ops = []
  · subst hne
    refine ⟨[], rfl, isGreatest_nil, fun ip hip => absurd hip (Nat.not_lt_zero _), ?_⟩
    rintro n st (_ | ⟨hip, -⟩)
    · exact ⟨Nat.zero_le _, fun _ => .rfl⟩
    · cases hip
  have hstart : Descending ops t entry (.start ops entry) := .start hne hentry
  have hpotential := potential_start_le ops hentry
  obtain ⟨sets, hresult, hsets⟩ := mustAnalysis_descending hne t hentry
  have hgreatest := hsets.descended.isGreatest hsets.closed
  refine ⟨sets, hresult, hgreatest, fun ip hip => ⟨fun hnone hreach => ?_, fun hreach => ?_⟩, ?_⟩
  · obtain ⟨B, hB⟩ := hreach.setAt hresult hip
    rw [SetAt, hnone] at hB
    cases hB
  · -- no edge leads into the unreachable positions
    have htop : Cell.top ≤ cells sets ip := by
      refine hsets.descended.top_le hsets.closed (S := {ip | ¬ CfgReaches ops ip}) Cell.le_top
        (fun v hv => ?_) (fun p v hv => not_cfgReaches hv)
        (fun p => (mustFlow_transfer_top p).symm.le) hreach
      rcases v with _ | v
      · exact absurd .entry hv
      · rcases ops <;> exact le_rfl
    have hcell := Cell.eq_top htop
    have hlt : ip < sets.length := hsets.inv.length ▸ hip
    rw [cells, List.getElem?_eq_getElem hlt] at hcell
    rw [List.getElem?_eq_getElem hlt]
    exact congrArg some hcell
  · intro n st hst
    obtain ⟨hrun, hn⟩ := hst.descending hstart
    refine ⟨(Nat.le_of_add_right_le hn).trans hpotential, fun hwork => ?_⟩
    obtain ⟨sets', work⟩ := st
    cases hwork
    have hrun' := hrun.descended.isGreatest hrun.closed
    exact ⟨hgreatest.2 hrun'.1, hrun'.2 hgreatest.1⟩

/-! ## The two analyses -/

theorem Within.insert {B : Bits} (h : Within slots B) {i : ℕ} (hi : i ∈ slots) :
    Within slots (B.insert i) :=
  ⟨h.1.insert, fun _ hj => (List.mem_insert_iff.mp hj).elim (fun he => he ▸ hi) fun hj => h.2 hj⟩

/-- The local slots of a chunk. -/
def localTransfers (chunk : Chunk) : Transfer (List.range chunk.localCount) where
  apply := localTransfer chunk
  mono op B B' h := by
    cases op with
    | setLocal i =>
      simp only [localTransfer]
      split
      · intro j hj
        exact List.mem_insert_iff.mpr ((List.mem_insert_iff.mp hj).imp_right fun hj => h hj)
      · exact h
    | stream => exact List.Subset.refl _
    | _ => exact h
  within op B h := by
    cases op with
    | setLocal i =>
      simp only [localTransfer]
      split
      next hi => exact h.insert (List.mem_range.mpr hi)
      · exact h
    | stream =>
      simp only [localTransfer]
      split
      next hpos => exact ⟨List.nodup_singleton 0, by simp [hpos.2]⟩
      · exact ⟨List.nodup_nil, List.nil_subset _⟩
    | _ => exact h

theorem mem_foldl_insert {l B : Bits} {j : ℕ} :
    j ∈ l.foldl (fun acc i => acc.insert i) B ↔ j ∈ B ∨ j ∈ l := by
  induction l generalizing B with
  | nil => simp
  | cons i l ih => simp [ih, or_assoc, or_left_comm]

theorem Within.foldl_insert {l B : Bits} (h : Within slots B) (hl : l ⊆ slots) :
    Within slots (l.foldl (fun acc i => acc.insert i) B) := by
  induction l generalizing B with
  | nil => exact h
  | cons i l ih =>
    exact ih (h.insert (hl List.mem_cons_self)) fun _ hj => hl (List.mem_cons_of_mem i hj)

/-- The private data slots that start empty, with what the callees have written. -/
def dataTransfers (unit : List ℕ) (summaries : ℕ → {B : Bits // B ⊆ unit}) : Transfer unit where
  apply := dataTransfer unit fun c => summaries c
  mono op B B' h := by
    cases op with
    | setData s =>
      simp only [dataTransfer]
      split
      · intro j hj
        exact List.mem_insert_iff.mpr ((List.mem_insert_iff.mp hj).imp_right fun hj => h hj)
      · exact h
    | call c n =>
      intro j hj
      exact mem_foldl_insert.mpr ((mem_foldl_insert.mp hj).imp_left fun hj => h hj)
    | _ => exact h
  within op B h := by
    cases op with
    | setData s =>
      simp only [dataTransfer]
      split
      next hs => exact h.insert hs
      · exact h
    | call c n => exact h.foldl_insert (summaries c).property
    | _ => exact h

/-- The analysis ends with sets of the slots. -/
theorem mustAnalysis_bounded (ops : List Op) (t : Transfer slots) {entry : Bits}
    (hentry : Within slots entry) :
    ∃ sets, mustAnalysis ops slots.length entry t.apply = some sets ∧
      ∀ ip B, SetAt sets ip B → Within slots B := by
  by_cases hne : ops = []
  · subst hne
    exact ⟨[], rfl, fun _ _ h => by cases h⟩
  · obtain ⟨sets, hresult, hsets⟩ := mustAnalysis_descending hne t hentry
    exact ⟨sets, hresult, hsets.bounded⟩

/-- **The analysis of the local slots** never runs out of fuel. -/
theorem localAnalysis_ends (chunk : Chunk) : ∃ sets, localAnalysis chunk = some sets := by
  have hentry : Within (List.range chunk.localCount) (entryBits chunk) :=
    ⟨List.nodup_range, List.range_subset.mpr (Nat.min_le_right _ _)⟩
  obtain ⟨sets, hsets, -⟩ := mustAnalysis_bounded chunk.ops (localTransfers chunk) hentry
  rw [List.length_range] at hsets
  exact ⟨sets, hsets⟩

/-- A summary names slots of the sets it is taken from. -/
theorem returnSummary_subset {chunk : Chunk} {sets : List (Option Bits)}
    (h : ∀ ip B, SetAt sets ip B → B ⊆ slots) : returnSummary chunk sets ⊆ slots := by
  rw [returnSummary]
  generalize hreturns : List.filterMap _ (chunk.ops.zip sets) = returns
  have hmem (B : Bits) (hB : B ∈ returns) : B ⊆ slots := by
    rw [← hreturns] at hB
    obtain ⟨⟨op, cell⟩, he, hB⟩ := List.mem_filterMap.mp hB
    obtain ⟨ip, hip⟩ := List.mem_iff_getElem?.mp (List.of_mem_zip he).2
    dsimp only at hB hip
    split at hB
    · cases hB
      exact h ip B hip
    · cases hB
  have hfold : ∀ acc : Option Bits, (∀ B, acc = some B → B ⊆ slots) →
      (returns.foldl (fun acc set => some (acc.elim set fun old => old.filter (· ∈ set)))
        acc).getD [] ⊆ slots := by
    clear hreturns
    induction returns with
    | nil =>
      intro acc hacc
      rcases acc with _ | B
      · exact List.nil_subset _
      · exact hacc B rfl
    | cons set returns ih =>
      intro acc hacc
      refine ih (fun B hB => hmem B (List.mem_cons_of_mem _ hB)) _ fun B hB => ?_
      cases hB
      rcases acc with _ | old
      · exact hmem set List.mem_cons_self
      · exact fun j hj => hacc old rfl (List.mem_filter.mp hj).1
  exact hfold none (by rintro _ ⟨⟩)

/-- **The summaries of the data analysis** never run out of fuel. -/
theorem dataSummaries_ends (m : Module) (unit : List ℕ) {order : List ℕ} {summaries : ℕ → Bits}
    (horder : ∀ c ∈ order, c < m.chunks.length) (hsub : ∀ c, summaries c ⊆ unit) :
    ∃ summaries', dataSummaries m unit order summaries = some summaries' ∧
      ∀ c, summaries' c ⊆ unit := by
  induction order generalizing summaries with
  | nil => exact ⟨summaries, rfl, hsub⟩
  | cons c order ih =>
    obtain ⟨hc, horder⟩ := List.forall_mem_cons.mp horder
    obtain ⟨sets, hsets, hwithin⟩ := mustAnalysis_bounded (m.chunks[c]).ops
      (dataTransfers unit fun c => ⟨summaries c, hsub c⟩) ⟨List.nodup_nil, List.nil_subset unit⟩
    rw [dataSummaries, List.getElem?_eq_getElem hc]
    have hsets' : mustAnalysis (m.chunks[c]).ops unit.length [] (dataTransfer unit summaries) =
        some sets := hsets
    simp only [bind, Option.bind_some, hsets']
    refine ih horder fun i => ?_
    split_ifs
    · exact returnSummary_subset fun ip B hB => (hwithin ip B hB).2
    · exact hsub i

theorem calleesFirstFrom_lt {m : Module} {fuel : ℕ} {ready order : List ℕ}
    (hready : ∀ c ∈ ready, c < m.chunks.length) (horder : ∀ c ∈ order, c < m.chunks.length) :
    ∀ c ∈ calleesFirstFrom m fuel ready order, c < m.chunks.length := by
  induction fuel generalizing ready order with
  | zero => exact horder
  | succ fuel ih =>
    cases ready with
    | nil => exact horder
    | cons c ready =>
      obtain ⟨hc, hready⟩ := List.forall_mem_cons.mp hready
      refine ih (fun d hd => ?_) fun d hd => ?_
      · rcases List.mem_append.mp hd with hd | hd
        · exact hready d hd
        · exact List.mem_range.mp (List.mem_filter.mp hd).1
      · rcases List.mem_append.mp hd with hd | hd
        · exact horder d hd
        · exact List.mem_singleton.mp hd ▸ hc

/-- The rule about private data finds the summaries of a module. -/
theorem checkPrivateData_summaries (m : Module) : ∃ summaries,
    dataSummaries m (unitPrivateSlots m) (calleesFirst m) (fun _ => []) = some summaries := by
  obtain ⟨summaries, h, -⟩ := dataSummaries_ends m (unitPrivateSlots m)
    (calleesFirstFrom_lt (fun c hc => List.mem_range.mp (List.mem_filter.mp hc).1)
      fun _ hc => absurd hc List.not_mem_nil) fun _ => List.nil_subset _
  exact ⟨summaries, h⟩

end Keleusma
