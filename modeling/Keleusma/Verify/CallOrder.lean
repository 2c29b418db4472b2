import Keleusma.Logic.PostOrder
import Keleusma.Logic.Overflow
import Keleusma.Verify.Structure
import Mathlib.Data.List.Perm.Subperm

/-!
# The order of calls

`topologicalCallOrder` puts every chunk behind the chunks it calls, by a depth-first search with
two marks for each chunk, or refuses a module in which a chunk may come to call itself
(`topologicalCallOrder_spec`). From the order `moduleCallDepth` finds the length of the longest
chain of calls in one pass (`moduleCallDepth_isGreatest`).
-/

namespace Keleusma

open Saturating (u32Max)

/-! ## The search -/

/-- The marks of the search, and the chunks it has left behind. -/
structure Marks where
  visited : ℕ → Bool
  onStack : ℕ → Bool
  order : List ℕ

/-- A refusal of the search. -/
def recursiveCall (m : Module) (idx : ℕ) : VerifyError :=
  ⟨(m.chunks[idx]?).elim "" (·.name), .recursiveCall⟩

/-- The instructions of a chunk; none for an index out of range. -/
def Module.ops (m : Module) (idx : ℕ) : List Op := (m.chunks[idx]?).elim [] (·.ops)

/-- Visit the chunk that an instruction calls. -/
def visitCallee (m : Module) (visit : ℕ → Marks → Except VerifyError Marks) (s : Marks) (op : Op) :
    Except VerifyError Marks :=
  match op with
  | .call callee _ => if callee < m.chunks.length then visit callee s else .ok s
  | _ => .ok s

/-- Visit a chunk and, before it, all it calls. The fuel bounds the depth of the recursion. -/
def topoVisit (m : Module) : ℕ → ℕ → Marks → Except VerifyError Marks
  | 0, _, _ => .error ⟨"", .panicked⟩
  | fuel + 1, idx, s =>
    if s.onStack idx then .error (recursiveCall m idx)
    else if s.visited idx then .ok s
    else do
      let s ← (m.ops idx).foldlM (visitCallee m (topoVisit m fuel))
        { s with onStack := Function.update s.onStack idx true }
      return {
        visited := Function.update s.visited idx true
        onStack := Function.update s.onStack idx false
        order := s.order ++ [idx] }

/-- The order of the chunks, callees first. -/
def topologicalCallOrder (m : Module) : Except VerifyError (List ℕ) := do
  let n := m.chunks.length
  let s ← (List.range n).foldlM
    (fun s i => if s.visited i then .ok s else topoVisit m (n + 1) i s)
    ⟨fun _ => false, fun _ => false, []⟩
  return s.order

/-- Take an instruction into account: a chunk is one deeper than those it calls. -/
def raiseDepth (m : Module) (depth : ℕ → ℕ) (d : ℕ) (op : Op) : ℕ :=
  match op with
  | .call callee _ =>
    if callee < m.chunks.length then max d (Saturating.add u32Max (depth callee) 1) else d
  | _ => d

/-- The depth of a chunk from the depths of what it calls. -/
def chunkCallDepth (m : Module) (depth : ℕ → ℕ) (idx : ℕ) : ℕ :=
  (m.ops idx).foldl (raiseDepth m depth) 1

/-- The greatest number of frames that calls can put on top of one another. -/
def moduleCallDepth (m : Module) : Except VerifyError ℕ := do
  let order ← topologicalCallOrder m
  let depth := order.foldl (fun depth idx => Function.update depth idx (chunkCallDepth m depth idx))
    fun _ => 1
  return (((List.range m.chunks.length).map depth).max?).getD 0

/-! ## Calls -/

/-- A chunk has an instruction that calls the other, which exists. -/
def Calls (m : Module) (i j : ℕ) : Prop :=
  ∃ args, Op.call j args ∈ m.ops i ∧ j < m.chunks.length

/-- Every call names a chunk of the module, in an operand of 16 bits. -/
def CallsInRange (m : Module) : Prop :=
  ∀ c ∈ m.chunks, ∀ callee args, Op.call callee args ∈ c.ops →
    callee < m.chunks.length ∧ callee < 2 ^ 16

/-- Chunks each of which calls the next. -/
def CallChain (m : Module) (l : List ℕ) : Prop :=
  l.IsChain (Calls m) ∧ ∀ i ∈ l, i < m.chunks.length

/-- No chunk calls itself, not even through others. -/
def Acyclic (m : Module) : Prop := ∀ i, ¬Relation.TransGen (Calls m) i i

variable {m : Module}

/-! ## What the search finds -/

/-- The marks agree with the path of the search, and with what it has left behind. -/
structure Marked (m : Module) (path : List ℕ) (s : Marks) : Prop where
  searched : Searched (Calls m) path s.order
  visited : ∀ i, s.visited i = true ↔ i ∈ s.order
  onStack : ∀ i, s.onStack i = true ↔ i ∈ path
  inRange : ∀ i ∈ s.order, i < m.chunks.length

theorem Marked.start : Marked m [] ⟨fun _ => false, fun _ => false, []⟩ where
  searched := .start
  visited _ := ⟨by rintro ⟨⟩, by rintro ⟨⟩⟩
  onStack _ := ⟨by rintro ⟨⟩, by rintro ⟨⟩⟩
  inRange := List.forall_mem_nil _

theorem Marked.enter {path : List ℕ} {s : Marks} {idx : ℕ} (h : Marked m path s)
    (hpath : idx ∉ path) (horder : idx ∉ s.order) :
    Marked m (idx :: path) { s with onStack := Function.update s.onStack idx true } where
  searched := h.searched.enter hpath horder
  visited := h.visited
  onStack i := by
    show Function.update s.onStack idx true i = true ↔ _
    rw [List.mem_cons, ← h.onStack i, Function.update_apply]
    split_ifs with hi
    · exact ⟨fun _ => .inl hi, fun _ => rfl⟩
    · exact ⟨.inr, fun h => h.resolve_left hi⟩
  inRange := h.inRange

theorem Marked.leave {path : List ℕ} {s : Marks} {idx : ℕ} (h : Marked m (idx :: path) s)
    (hidx : idx < m.chunks.length) (hcallees : ∀ j, Calls m idx j → j ∈ s.order) :
    Marked m path
      { visited := Function.update s.visited idx true
        onStack := Function.update s.onStack idx false
        order := s.order ++ [idx] } where
  searched := h.searched.leave hcallees
  visited i := by
    show Function.update s.visited idx true i = true ↔ _
    rw [List.mem_append, List.mem_singleton, ← h.visited i, Function.update_apply]
    split_ifs with hi
    · exact ⟨fun _ => .inr hi, fun _ => rfl⟩
    · exact ⟨.inl, fun h => h.resolve_right hi⟩
  onStack i := by
    have hnotin : idx ∉ path := (List.nodup_cons.mp h.searched.pathNodup).1
    show Function.update s.onStack idx false i = true ↔ _
    rw [Function.update_apply]
    split_ifs with hi
    · exact ⟨fun h => h.elim, fun hmem => absurd (hi ▸ hmem) hnotin⟩
    · rw [h.onStack i, List.mem_cons, or_iff_right hi]
  inRange := List.forall_mem_append.mpr ⟨h.inRange, List.forall_mem_singleton.mpr hidx⟩

/-- What a part of the search comes to: it goes on with at least what it had, or has found a
cycle. -/
def Explores (m : Module) (path order : List ℕ) (goal : List ℕ → Prop) :
    Except VerifyError Marks → Prop
  | .ok s => Marked m path s ∧ order <+: s.order ∧ goal s.order
  | .error e => e.fault = .recursiveCall ∧ ¬Acyclic m

/-- The search goes on for each element of a list in turn. -/
theorem explores_foldlM {β : Type} {path : List ℕ} {f : Marks → β → Except VerifyError Marks}
    {goal : β → List ℕ → Prop}
    (hmono : ∀ b order order', order <+: order' → goal b order → goal b order') {l : List β}
    (hf : ∀ b ∈ l, ∀ s, Marked m path s → Explores m path s.order (goal b) (f s b)) {s : Marks}
    (h : Marked m path s) :
    Explores m path s.order (fun order => ∀ b ∈ l, goal b order) (l.foldlM f s) := by
  induction l generalizing s with
  | nil => exact ⟨h, List.prefix_rfl, List.forall_mem_nil _⟩
  | cons b l ih =>
    have hb := hf b List.mem_cons_self s h
    rw [List.foldlM_cons]
    cases hr : f s b with
    | error e =>
      rw [hr] at hb
      exact hb
    | ok s₁ =>
      rw [hr] at hb
      obtain ⟨h₁, hpre₁, hgoal⟩ := hb
      have hrest := ih (fun c hc => hf c (List.mem_cons_of_mem _ hc)) h₁
      show Explores m path s.order _ (l.foldlM f s₁)
      cases hr₂ : l.foldlM f s₁ with
      | error e =>
        rw [hr₂] at hrest
        exact hrest
      | ok s₂ =>
        rw [hr₂] at hrest
        obtain ⟨h₂, hpre₂, hgoals⟩ := hrest
        exact ⟨h₂, hpre₁.trans hpre₂, List.forall_mem_cons.mpr ⟨hmono _ _ _ hpre₂ hgoal, hgoals⟩⟩

/-- What an instruction calls is in the order. -/
def Ordered (m : Module) (op : Op) (order : List ℕ) : Prop :=
  ∀ callee args, op = .call callee args → callee < m.chunks.length → callee ∈ order

theorem explores_visitCallee {path : List ℕ} {visit : ℕ → Marks → Except VerifyError Marks}
    {op : Op} {s : Marks} (h : Marked m path s)
    (hvisit : ∀ callee args, op = .call callee args → callee < m.chunks.length →
      Explores m path s.order (callee ∈ ·) (visit callee s)) :
    Explores m path s.order (Ordered m op) (visitCallee m visit s op) := by
  unfold visitCallee
  split
  next callee args =>
    split_ifs with hlt
    · have hcallee := hvisit callee args rfl hlt
      cases hr : visit callee s with
      | error e =>
        rw [hr] at hcallee
        exact hcallee
      | ok s' =>
        rw [hr] at hcallee
        refine ⟨hcallee.1, hcallee.2.1, ?_⟩
        rintro _ _ ⟨⟩ -
        exact hcallee.2.2
    · refine ⟨h, List.prefix_rfl, ?_⟩
      rintro _ _ ⟨⟩ hlt'
      exact absurd hlt' hlt
  next hnot =>
    exact ⟨h, List.prefix_rfl, fun callee args hop _ => absurd hop (hnot callee args)⟩

/-- **A visit** puts the chunk into the order, or finds a cycle. The path that led to the chunk
reaches it by calls, and the fuel is enough for the chunks that are not on it. -/
theorem explores_topoVisit {fuel idx : ℕ} {path : List ℕ} {s : Marks} (h : Marked m path s)
    (hidx : idx < m.chunks.length) (hpath : ∀ i ∈ path, i < m.chunks.length)
    (hcalls : ∀ i ∈ path, Relation.TransGen (Calls m) i idx)
    (hfuel : m.chunks.length < fuel + path.length) :
    Explores m path s.order (idx ∈ ·) (topoVisit m fuel idx s) := by
  induction fuel generalizing idx path s with
  | zero =>
    -- the path has no more chunks than the module
    have hle : path.length ≤ (List.range m.chunks.length).length :=
      (h.searched.pathNodup.subperm fun i hi => List.mem_range.mpr (hpath i hi)).length_le
    rw [List.length_range] at hle
    omega
  | succ fuel ih =>
    rw [topoVisit]
    split_ifs with hon hvisited
    · exact ⟨rfl, fun hacyclic => hacyclic idx (hcalls idx ((h.onStack idx).mp hon))⟩
    · exact ⟨h, List.prefix_rfl, (h.visited idx).mp hvisited⟩
    · have hnotin : idx ∉ path := fun hmem => hon ((h.onStack idx).mpr hmem)
      have hnew : idx ∉ s.order := fun hmem => hvisited ((h.visited idx).mpr hmem)
      have hin := h.enter hnotin hnew
      have hall : ∀ op ∈ m.ops idx, ∀ s₁, Marked m (idx :: path) s₁ →
          Explores m (idx :: path) s₁.order (Ordered m op)
            (visitCallee m (topoVisit m fuel) s₁ op) := by
        intro op hop s₁ h₁
        refine explores_visitCallee h₁ fun callee args heq hlt => ?_
        have hcall : Calls m idx callee := ⟨args, heq ▸ hop, hlt⟩
        refine ih h₁ hlt (List.forall_mem_cons.mpr ⟨hidx, hpath⟩)
          (List.forall_mem_cons.mpr ⟨.single hcall, fun i hi => (hcalls i hi).tail hcall⟩) ?_
        rw [List.length_cons]
        omega
      have hfold := explores_foldlM (fun op _ _ hpre hop callee args heq hlt =>
        hpre.subset (hop callee args heq hlt)) hall hin
      cases hr : (m.ops idx).foldlM (visitCallee m (topoVisit m fuel))
          { s with onStack := Function.update s.onStack idx true } with
      | error e =>
        rw [hr] at hfold
        exact hfold
      | ok s₁ =>
        rw [hr] at hfold
        obtain ⟨h₁, hpre, hcallees⟩ := hfold
        refine ⟨h₁.leave hidx ?_, hpre.trans (List.prefix_append _ _),
          List.mem_append_right _ (List.mem_singleton_self idx)⟩
        rintro j ⟨args, hop, hlt⟩
        exact hcallees _ hop j args rfl hlt

/-- **The search** puts every chunk behind the chunks it calls, or finds a cycle. -/
theorem topologicalCallOrder_spec (m : Module) :
    (∀ order, topologicalCallOrder m = .ok order →
      order.Perm (List.range m.chunks.length) ∧ PostOrder (Calls m) order) ∧
    ∀ e, topologicalCallOrder m = .error e → e.fault = .recursiveCall ∧ ¬Acyclic m := by
  have hone : ∀ i ∈ List.range m.chunks.length, ∀ s, Marked m [] s →
      Explores m [] s.order (i ∈ ·)
        (if s.visited i then .ok s else topoVisit m (m.chunks.length + 1) i s) := by
    intro i hi s h
    split_ifs with hvisited
    · exact ⟨h, List.prefix_rfl, (h.visited i).mp hvisited⟩
    · exact explores_topoVisit h (List.mem_range.mp hi) (List.forall_mem_nil _)
        (List.forall_mem_nil _) (Nat.lt_succ_self _)
  have hfold := @explores_foldlM m ℕ [] _ (fun i order => i ∈ order)
    (fun i _ _ hpre hi => hpre.subset hi) _ hone _ .start
  rw [topologicalCallOrder]
  cases hr : (List.range m.chunks.length).foldlM
      (fun (s : Marks) i =>
        if s.visited i then Except.ok s else topoVisit m (m.chunks.length + 1) i s)
      ⟨fun _ => false, fun _ => false, []⟩ with
  | error e =>
    rw [hr] at hfold
    refine ⟨fun order horder => ?_, fun e' he => ?_⟩
    · cases horder
    · cases he
      exact hfold
  | ok s =>
    rw [hr] at hfold
    obtain ⟨h, -, hall⟩ := hfold
    refine ⟨fun order horder => ?_, fun e he => ?_⟩
    · cases horder
      refine ⟨(List.perm_ext_iff_of_nodup h.searched.nodup List.nodup_range).mpr fun i => ?_,
        h.searched.post⟩
      exact ⟨fun hi => List.mem_range.mpr (h.inRange i hi), hall i⟩
    · cases he

theorem Calls.lt {i j : ℕ} (h : Calls m i j) : i < m.chunks.length ∧ j < m.chunks.length := by
  obtain ⟨args, hop, hj⟩ := h
  refine ⟨not_le.mp fun hle => ?_, hj⟩
  rw [Module.ops, List.getElem?_eq_none hle] at hop
  cases hop

/-- An order of the chunks, callees first, leaves room for no cycle. -/
theorem acyclic_of_postOrder {order : List ℕ} (hperm : order.Perm (List.range m.chunks.length))
    (hpost : PostOrder (Calls m) order) : Acyclic m := by
  intro i hcycle
  have hi : i < m.chunks.length := by
    obtain ⟨j, hij, -⟩ := Relation.TransGen.head'_iff.mp hcycle
    exact hij.lt.1
  exact hpost.acyclic (hperm.nodup_iff.mpr List.nodup_range)
    (hperm.mem_iff.mpr (List.mem_range.mpr hi)) hcycle

theorem topologicalCallOrder_isOk_iff (m : Module) :
    (topologicalCallOrder m).isOk ↔ Acyclic m := by
  obtain ⟨hok, herr⟩ := topologicalCallOrder_spec m
  cases hr : topologicalCallOrder m with
  | ok order =>
    obtain ⟨hperm, hpost⟩ := hok order hr
    exact ⟨fun _ => acyclic_of_postOrder hperm hpost, fun _ => rfl⟩
  | error e => exact ⟨by rintro ⟨⟩, fun hacyclic => absurd hacyclic (herr e hr).2⟩

/-! ## Depth -/

/-- The called chunks of a chain are called by one before them. -/
theorem isChain_called {i : ℕ} {l : List ℕ} (h : (i :: l).IsChain (Calls m)) :
    ∀ j ∈ l, ∃ k, Calls m k j := by
  induction l generalizing i with
  | nil => exact List.forall_mem_nil _
  | cons j l ih =>
    obtain ⟨hij, hl⟩ := List.isChain_cons_cons.mp h
    exact List.forall_mem_cons.mpr ⟨⟨i, hij⟩, ih hl⟩

/-- No addition of depths reaches the bound of the counter: chunks are called by 16 bits. -/
theorem height_lt_saturated {i d : ℕ} (hrange : CallsInRange m) (hacyclic : Acyclic m)
    (h : Height (Calls m) i d) : d + 1 < 2 ^ 32 := by
  obtain ⟨l, hl, rfl⟩ := h.attained
  have hnodup : l.Nodup := (List.nodup_cons.mp (nodup_of_isChain hacyclic hl)).2
  have hsub : l ⊆ List.range (2 ^ 16) := by
    intro j hj
    obtain ⟨k, args, hop, -⟩ := isChain_called hl j hj
    rw [Module.ops] at hop
    cases hk : m.chunks[k]? with
    | none =>
      rw [hk] at hop
      cases hop
    | some c =>
      rw [hk] at hop
      exact List.mem_range.mpr (hrange c (List.mem_of_getElem? hk) j args hop).2
  have hle : l.length ≤ (List.range (2 ^ 16)).length := (hnodup.subperm hsub).length_le
  rw [List.length_range] at hle
  omega

/-- The depths of what the instructions call, each with the chunk itself on top. -/
def calledDepths (m : Module) (depth : ℕ → ℕ) (ops : List Op) : Set ℕ :=
  {k | ∃ j args, Op.call j args ∈ ops ∧ j < m.chunks.length ∧ k = depth j + 1}

/-- An instruction raises the depth to that of what it calls. -/
theorem raiseDepth_isGreatest {depth : ℕ → ℕ} (d : ℕ) (op : Op)
    (hdepth : ∀ k ∈ calledDepths m depth [op], k < 2 ^ 32) :
    IsGreatest (insert d (calledDepths m depth [op])) (raiseDepth m depth d op) := by
  by_cases hcall : ∃ j args, op = .call j args ∧ j < m.chunks.length
  · obtain ⟨j, args, rfl, hj⟩ := hcall
    have hmem : depth j + 1 ∈ calledDepths m depth [.call j args] :=
      ⟨j, args, List.mem_singleton_self _, hj, rfl⟩
    have hlt := hdepth _ hmem
    have hsat : Saturating.add u32Max (depth j) 1 = depth j + 1 := by
      unfold Saturating.add u32Max
      omega
    rw [raiseDepth, if_pos hj, hsat]
    refine ⟨?_, ?_⟩
    · rcases max_choice d (depth j + 1) with hmax | hmax
      · exact .inl hmax
      · exact .inr (by rwa [hmax])
    · rintro _ (rfl | ⟨j', args', hop, -, rfl⟩)
      · exact le_max_left _ _
      · cases List.mem_singleton.mp hop
        exact le_max_right _ _
  · have hraise : raiseDepth m depth d op = d := by
      unfold raiseDepth
      split
      next j args => exact if_neg fun hj => hcall ⟨j, args, rfl, hj⟩
      · rfl
    rw [hraise]
    refine ⟨Set.mem_insert _ _, ?_⟩
    rintro _ (rfl | ⟨j, args, hop, hj, rfl⟩)
    · exact le_rfl
    · exact absurd ⟨j, args, (List.mem_singleton.mp hop).symm, hj⟩ hcall

theorem foldl_raiseDepth_isGreatest {depth : ℕ → ℕ} {ops : List Op} (d : ℕ)
    (hdepth : ∀ k ∈ calledDepths m depth ops, k < 2 ^ 32) :
    IsGreatest (insert d (calledDepths m depth ops)) (ops.foldl (raiseDepth m depth) d) := by
  induction ops generalizing d with
  | nil =>
    refine ⟨Set.mem_insert _ _, ?_⟩
    rintro _ (rfl | ⟨j, args, hop, -⟩)
    · exact le_rfl
    · cases hop
  | cons op ops ih =>
    have hhead : calledDepths m depth [op] ⊆ calledDepths m depth (op :: ops) := by
      rintro k ⟨j, args, hop, hj⟩
      exact ⟨j, args, List.mem_cons.mpr (.inl (List.mem_singleton.mp hop)), hj⟩
    have htail : calledDepths m depth ops ⊆ calledDepths m depth (op :: ops) := by
      rintro k ⟨j, args, hop, hj⟩
      exact ⟨j, args, List.mem_cons_of_mem _ hop, hj⟩
    have hop := raiseDepth_isGreatest d op fun k hk => hdepth k (hhead hk)
    have hops := ih (raiseDepth m depth d op) fun k hk => hdepth k (htail hk)
    rw [List.foldl_cons]
    refine ⟨?_, ?_⟩
    · rcases hops.1 with heq | hmem
      · rw [heq]
        exact Set.insert_subset_insert hhead hop.1
      · exact Set.mem_insert_of_mem _ (htail hmem)
    · have hraised := hops.2 (Set.mem_insert _ _)
      rintro _ (rfl | ⟨j, args, hmem, hj, rfl⟩)
      · exact (hop.2 (Set.mem_insert _ _)).trans hraised
      · rcases List.mem_cons.mp hmem with rfl | hmem
        · refine (hop.2 (Set.mem_insert_of_mem _ ?_)).trans hraised
          exact ⟨j, args, List.mem_singleton_self _, hj, rfl⟩
        · exact hops.2 (Set.mem_insert_of_mem _ ⟨j, args, hmem, hj, rfl⟩)

/-- The depths of the chunks in an order, callees first, when the depths of some are known. -/
theorem foldl_depth_height {order : List ℕ} (hrange : CallsInRange m) (hacyclic : Acyclic m)
    (hpost : PostOrder (Calls m) order) (hnodup : order.Nodup) (depth : ℕ → ℕ) :
    ∀ i ∈ order, Height (Calls m) i
      (order.foldl (fun depth idx => Function.update depth idx (chunkCallDepth m depth idx)) depth
        i) := by
  induction order using List.reverseRecOn with
  | nil => exact List.forall_mem_nil _
  | append_singleton order a ih =>
    obtain ⟨hnodup', -, hnew⟩ := List.nodup_append.mp hnodup
    have hbefore := ih hpost.of_append hnodup'
    rw [List.foldl_append, List.foldl_cons, List.foldl_nil]
    set known := order.foldl
      (fun depth idx => Function.update depth idx (chunkCallDepth m depth idx)) depth
    refine List.forall_mem_append.mpr ⟨fun i hi => ?_, List.forall_mem_singleton.mpr ?_⟩
    · rw [Function.update_of_ne (hnew i hi a (List.mem_singleton_self a))]
      exact hbefore i hi
    · rw [Function.update_self]
      have hcallees : ∀ j, Calls m a j → Height (Calls m) j (known j) := fun j hj =>
        hbefore j (hpost order a [] rfl j hj)
      refine .of_successors hcallees ?_
      have hcalled : {k | ∃ j, Calls m a j ∧ k = known j + 1} = calledDepths m known (m.ops a) := by
        ext k
        constructor
        · rintro ⟨j, ⟨args, hop, hj⟩, rfl⟩
          exact ⟨j, args, hop, hj, rfl⟩
        · rintro ⟨j, args, hop, hj, rfl⟩
          exact ⟨j, ⟨args, hop, hj⟩, rfl⟩
      rw [hcalled]
      refine foldl_raiseDepth_isGreatest 1 ?_
      rintro _ ⟨j, args, hop, hj, rfl⟩
      exact height_lt_saturated hrange hacyclic (hcallees j ⟨args, hop, hj⟩)

/-- **The depth of a module** is the length of its longest chain of calls. -/
theorem moduleCallDepth_isGreatest (hrange : CallsInRange m) {d : ℕ}
    (h : moduleCallDepth m = .ok d) :
    IsGreatest {k | ∃ l, CallChain m l ∧ l.length = k} d := by
  rw [moduleCallDepth] at h
  cases horder : topologicalCallOrder m with
  | error e =>
    rw [horder] at h
    cases h
  | ok order =>
    rw [horder] at h
    obtain ⟨hperm, hpost⟩ := (topologicalCallOrder_spec m).1 order horder
    have hheight := foldl_depth_height hrange (acyclic_of_postOrder hperm hpost) hpost
      (hperm.nodup_iff.mpr List.nodup_range) fun _ => 1
    set depth := order.foldl
      (fun depth idx => Function.update depth idx (chunkCallDepth m depth idx)) fun _ => 1
    obtain rfl : ((List.range m.chunks.length).map depth).max?.getD 0 = d := Except.ok.inj h
    have hlt {i : ℕ} (hi : i < m.chunks.length) : Height (Calls m) i (depth i) :=
      hheight i (hperm.mem_iff.mpr (List.mem_range.mpr hi))
    cases hmax : ((List.range m.chunks.length).map depth).max? with
    | none =>
      -- a module without chunks
      have hnone : ∀ i, ¬i < m.chunks.length := fun i hi => by
        rw [List.max?_eq_none_iff, List.map_eq_nil_iff] at hmax
        have := List.mem_range.mpr hi
        rw [hmax] at this
        cases this
      refine ⟨⟨[], ⟨List.isChain_nil, List.forall_mem_nil _⟩, rfl⟩, ?_⟩
      rintro _ ⟨l, ⟨-, hl⟩, rfl⟩
      cases l with
      | nil => exact le_rfl
      | cons i l => exact absurd (hl i List.mem_cons_self) (hnone i)
    | some d =>
      obtain ⟨hmem, hbound⟩ := List.max?_eq_some_iff.mp hmax
      obtain ⟨i, hi, rfl⟩ := List.mem_map.mp hmem
      refine ⟨?_, ?_⟩
      · obtain ⟨l, hl, hlen⟩ := (hlt (List.mem_range.mp hi)).attained
        have hin : ∀ j ∈ l, j < m.chunks.length := fun j hj =>
          (isChain_called hl j hj).elim fun k hk => hk.lt.2
        exact ⟨i :: l, ⟨hl, List.forall_mem_cons.mpr ⟨List.mem_range.mp hi, hin⟩⟩, hlen⟩
      · rintro _ ⟨l, ⟨hl, hin⟩, rfl⟩
        cases l with
        | nil => exact Nat.zero_le _
        | cons j l =>
          have hj : j < m.chunks.length := hin j List.mem_cons_self
          exact ((hlt hj).bound l hl).trans
            (hbound _ (List.mem_map_of_mem (List.mem_range.mpr hj)))

theorem moduleCallDepth_isOk_iff (m : Module) : (moduleCallDepth m).isOk ↔ Acyclic m := by
  rw [← topologicalCallOrder_isOk_iff, moduleCallDepth]
  cases topologicalCallOrder m with
  | ok order => exact ⟨fun _ => rfl, fun _ => rfl⟩
  | error e => exact Iff.rfl

end Keleusma
