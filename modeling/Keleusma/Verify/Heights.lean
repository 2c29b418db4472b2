import Keleusma.Control.Rules
import Keleusma.Control.Transfers
import Keleusma.Verify.Accepted

/-!
# Operand heights

The typed pass knows the exact height of the operand stack at every instruction that control can
reach, counted from the locals of the frame, and finds the operands of the instruction there; the
depth pass finds that control does not run off the end of the chunk. Both are walks over the
regions of the chunk, and the statements about them follow its blocks, once the operand of every
`Else` is known to name its own `EndIf`.
-/

namespace Keleusma

variable {ctx : TypedCtx} {op : Op} {ip : ℕ} {args locals r : List AbsVal}

/-! ## Shapes and heights -/

theorem fieldShape_length {v : AbsVal} {offset : ℕ} {kind : ScalarKind}
    (h : fieldShape ctx v offset kind ip = .ok r) : r.length = 1 := by
  obtain ⟨_, -, h⟩ := bind_eq_ok h
  obtain ⟨_, -, h⟩ := bind_eq_ok h
  cases h
  rfl

theorem nestedShape_length {v : AbsVal} {offset size : ℕ} {variant : CompositeKind}
    (h : nestedShape v offset size variant ip = .ok r) : r.length = 1 := by
  obtain ⟨_, -, h⟩ := bind_eq_ok h
  cases h
  rfl

theorem indexShapes_length {arr : AbsVal} {elem : ArrayElem}
    (h : indexShapes ctx arr elem ip = .ok r) : r.length = opProduces (.getIndex elem) := by
  rw [opProduces_getIndex]
  cases elem with
  | flat kind =>
    obtain ⟨_, -, h⟩ := bind_eq_ok h
    obtain ⟨_, -, h⟩ := bind_eq_ok h
    cases h
    simp only [boundsWords, List.length_cons, List.length_replicate]
    split_ifs <;> rfl
  | flatNested size variant =>
    obtain ⟨_, -, h⟩ := bind_eq_ok h
    cases h
    rfl
  | boxed =>
    cases h
    rfl

theorem callShape_length {callee : ℕ} (h : callShape ctx callee args ip = .ok r) :
    r.length = 1 := by
  unfold callShape at h
  split at h
  · obtain ⟨_, -, h⟩ := bind_eq_ok h
    cases h
    rfl
  · cases h
    rfl

/-- An instruction leaves as many shapes as values. -/
theorem opResults_length (h : opResults ctx op ip args locals = .ok r) :
    r.length = opProduces op := by
  unfold opResults at h
  split at h
  all_goals dsimp only at h
  case h_8 =>
    split at h
    · cases h
      rfl
    · cases h
  case h_11 =>
    obtain ⟨_, -, h⟩ := bind_eq_ok h
    cases h
    simp
  all_goals first
    | exact fieldShape_length h
    | exact nestedShape_length h
    | exact indexShapes_length h
    | exact (callShape_length h).trans (opProduces_call _ _).symm
    | (cases h; rfl)
    | (cases h; simp only [opProduces_callVerifiedNative, opProduces_callExternalNative,
        nativeResultCount]; split_ifs <;> rfl)
    | (cases h; exact List.length_replicate)


/-! ## The typed walk -/

/-- The effect of an instruction on the height of the operand stack. -/
def heightEff (op : Op) (h h' : ℕ) : Prop :=
  opRequires op ≤ h ∧ h' = h - opRequires op + opProduces op

/-- The operands of the instruction are there. -/
def HeightGood (op : Op) (h : ℕ) : Prop := opRequires op ≤ h

/-- The heights of the abstract states in a list, and of the one at the end of a region. -/
def heightsOf (l : List AbsState) : Set ℕ := {h | ∃ s ∈ l, s.stack.length = h}

abbrev heightAt (e : Option AbsState) : Set ℕ := heightsOf e.toList

theorem applyAbove_triple {floor : ℕ} {st st' : AbsState}
    (h : applyAbove ctx op ip floor st = .ok st') :
    OpTriple heightEff HeightGood op {st.stack.length} {st'.stack.length} := by
  obtain ⟨_, -, h⟩ := bind_eq_ok h
  unfold applyOp at h
  split at h
  · cases h
  next hreq =>
    obtain ⟨results, hres, h⟩ := bind_eq_ok h
    cases h
    have hlen := opResults_length hres
    rintro _ rfl
    refine ⟨by simpa [HeightGood] using hreq, ?_⟩
    rintro h' ⟨hle, rfl⟩
    simp only [Set.mem_singleton_iff, List.length_append, List.length_take, hlen]
    omega

/-- An instruction without operands and results leaves the height as it is. -/
theorem neutral_triple {P : Set ℕ} (he : opDepthEffect op = (0, 0)) :
    OpTriple heightEff HeightGood op P P := by
  have hreq : opRequires op = 0 := by rw [opRequires, he]; rfl
  have hprod : opProduces op = 0 := by rw [opProduces, he]; rfl
  intro h hh
  refine ⟨by simp [HeightGood, hreq], ?_⟩
  rintro h' ⟨-, rfl⟩
  rwa [hreq, hprod]

/-- The walk of a loop ends with a head that the body restores. -/
theorem loopFixpoint_ok {body : AbsState → Except TypedError BodyResult}
    {invalidate : List AbsVal → List AbsVal} {rounds : ℕ} {st head : AbsState}
    {bodyEnd : Option AbsState} {breaks : List AbsState}
    (h : loopFixpoint body invalidate ip rounds st = .ok (head, bodyEnd, breaks)) :
    head.stack = st.stack ∧ body head = .ok (bodyEnd, breaks) ∧
      ∀ be, bodyEnd = some be → be.stack = head.stack := by
  have hneutral : ∀ {head bodyEnd}, checkNeutral ip head bodyEnd = .ok () →
      ∀ be, bodyEnd = some be → be.stack = head.stack := by
    rintro head bodyEnd hn be rfl
    simp only [checkNeutral] at hn
    split at hn
    · assumption
    · cases hn
  induction rounds generalizing st with
  | zero =>
    unfold loopFixpoint at h
    obtain ⟨⟨be, bs⟩, hbody, h⟩ := bind_eq_ok h
    obtain ⟨_, hn, h⟩ := bind_eq_ok h
    dsimp only at h
    split at h
    · cases h
      exact ⟨rfl, hbody, hneutral hn⟩
    · split at h
      · cases h
        exact ⟨rfl, hbody, hneutral hn⟩
      · obtain ⟨⟨be', bs'⟩, hbody', h⟩ := bind_eq_ok h
        obtain ⟨_, hn', h⟩ := bind_eq_ok h
        cases h
        exact ⟨rfl, hbody', hneutral hn'⟩
  | succ n ih =>
    unfold loopFixpoint at h
    obtain ⟨⟨be, bs⟩, hbody, h⟩ := bind_eq_ok h
    obtain ⟨_, hn, h⟩ := bind_eq_ok h
    dsimp only at h
    split at h
    · cases h
      exact ⟨rfl, hbody, hneutral hn⟩
    · split at h
      · cases h
        exact ⟨rfl, hbody, hneutral hn⟩
      · have hrest := ih h
        exact hrest

theorem joinStates_length {a b j : AbsState} (h : joinStates a b ip = .ok j) :
    a.stack.length = b.stack.length ∧ j.stack.length = a.stack.length := by
  obtain ⟨st, hst, h⟩ := bind_eq_ok h
  cases h
  unfold joinStacks at hst
  split at hst
  · cases hst
  next hlen =>
    cases hst
    have := not_not.mp hlen
    refine ⟨this, ?_⟩
    simp [List.length_zipWith, this]

/-- The ends that fall through agree in height with their join. -/
theorem joinEnds_heights {a b j : Option AbsState} (h : joinEnds a b ip = .ok j) :
    heightAt a ∪ heightAt b ⊆ heightAt j := by
  rintro _ (⟨s, hs, rfl⟩ | ⟨s, hs, rfl⟩)
  all_goals
    obtain rfl := Option.mem_toList.mp hs
  · cases b with
    | none =>
      cases h
      exact ⟨s, List.mem_singleton_self s, rfl⟩
    | some b =>
      obtain ⟨c, hc, rfl⟩ := map_eq_ok h
      exact ⟨c, List.mem_singleton_self c, (joinStates_length hc).2⟩
  · cases a with
    | none =>
      cases h
      exact ⟨s, List.mem_singleton_self s, rfl⟩
    | some a =>
      obtain ⟨c, hc, rfl⟩ := map_eq_ok h
      have := joinStates_length hc
      exact ⟨c, List.mem_singleton_self c, this.2.trans this.1⟩

theorem joinAllFrom_length {acc j : AbsState} {l : List AbsState}
    (h : joinAllFrom acc ip l = .ok j) :
    acc.stack.length = j.stack.length ∧ ∀ s ∈ l, s.stack.length = j.stack.length := by
  induction l generalizing acc with
  | nil =>
    cases h
    exact ⟨rfl, nofun⟩
  | cons s l ih =>
    obtain ⟨acc', hj, h⟩ := bind_eq_ok h
    obtain ⟨hacc, hl⟩ := ih h
    obtain ⟨heq, hlen⟩ := joinStates_length hj
    refine ⟨by omega, fun t ht => ?_⟩
    rcases List.mem_cons.mp ht with rfl | ht
    · omega
    · exact hl t ht

/-- The breaks of a loop agree in height with their join. -/
theorem joinAll_heights {l : List AbsState} {j : Option AbsState} (h : joinAll l ip = .ok j) :
    heightsOf l ⊆ heightAt j := by
  cases l with
  | nil => rintro _ ⟨s, hs, rfl⟩; cases hs
  | cons s l =>
    obtain ⟨c, hc, rfl⟩ := map_eq_ok h
    obtain ⟨hs, hl⟩ := joinAllFrom_length hc
    rintro _ ⟨t, ht, rfl⟩
    refine ⟨c, List.mem_singleton_self c, ?_⟩
    rcases List.mem_cons.mp ht with rfl | ht
    · exact hs.symm
    · exact (hl t ht).symm

/-! ## Finding the blocks -/

/-- A region does not end with an `Else`. -/
theorem Region.last {own : ℕ → ℕ → Prop} {ops : List Op} {x : Option ℕ} {lo hi : ℕ}
    (h : Region own ops x lo hi) :
    lo = hi ∨ lo < hi ∧ ∀ t, ops[hi - 1]? ≠ some (.elseOp t) := by
  have hlast : ∀ {lo hi : ℕ} {op : Op}, ops[lo]? = some op → (∀ t, op ≠ .elseOp t) →
      (lo + 1 = hi ∨ lo + 1 < hi ∧ ∀ t, ops[hi - 1]? ≠ some (.elseOp t)) →
      lo < hi ∧ ∀ t, ops[hi - 1]? ≠ some (.elseOp t) := by
    rintro lo hi op hop hne (rfl | ⟨hlt, h⟩)
    · refine ⟨Nat.lt_succ_self lo, fun t ht => ?_⟩
      rw [Nat.add_sub_cancel] at ht
      exact hne t (Option.some.inj (hop.symm.trans ht))
    · exact ⟨by omega, h⟩
  induction h with
  | nil => exact .inl rfl
  | leaf hop hd _ ih => exact .inr (hlast hop (by rintro t rfl; cases hd) ih)
  | «break» hop _ ih => exact .inr (hlast hop nofun ih)
  | breakIf hop _ ih => exact .inr (hlast hop nofun ih)
  | ifThen _ body hend _ _ ih =>
    have := body.le
    have := hlast hend nofun ih
    exact .inr ⟨by omega, this.2⟩
  | ifElse _ thenBody _ _ elseBody hend _ _ _ ih =>
    have := thenBody.le
    have := elseBody.le
    have := hlast hend nofun ih
    exact .inr ⟨by omega, this.2⟩
  | loop _ body hend _ _ ih =>
    have := body.le
    have := hlast hend nofun ih
    exact .inr ⟨by omega, this.2⟩

variable {own : ℕ → ℕ → Prop} {ops : List Op} {x : Option ℕ} {lo m hi : ℕ}

/-- The walkers find no alternative in a branch that has none. -/
theorem Region.elseBefore_none (body : Region own ops x (lo + 1) m)
    (hif : ops[lo]? = some (.ifOp m)) : elseBefore ops m = none := by
  unfold elseBefore
  split
  · split
    next t ht =>
      rcases body.last with rfl | ⟨-, hne⟩
      · cases hif.symm.trans ht
      · exact absurd ht (hne t)
    · rfl
  · rfl

/-- The walkers find the alternative of a branch. -/
theorem elseBefore_some {t : ℕ} (helse : ops[m]? = some (.elseOp t)) :
    elseBefore ops (m + 1) = some t := by
  have := (List.getElem?_eq_some_iff.mp helse).1
  simp only [elseBefore, Nat.add_sub_cancel, helse]
  rw [if_pos (by omega)]

/-! ## The walk of the typed pass -/

section Interp

variable {fuel floor : ℕ} {st : AbsState} {breaks bs : List AbsState} {e : Option AbsState}

/-- What the walk does at an instruction that is no delimiter. -/
theorem interpRegion_leaf (hlt : lo < hi) (hop : ctx.chunk.ops[lo]? = some op)
    (hd : op.isDelimiter = false)
    (h : interpRegion ctx fuel lo hi st breaks floor = .ok (e, bs)) :
    (op.next lo = [] ∧ e = none ∧ bs = breaks ∧
      ∃ st', OpTriple heightEff HeightGood op {st.stack.length} st') ∨
    ∃ st' fuel', applyAbove ctx op lo floor st = .ok st' ∧
      interpRegion ctx fuel' (lo + 1) hi st' breaks floor = .ok (e, bs) := by
  cases fuel with
  | zero => cases h
  | succ fuel =>
    rw [interpRegion, if_neg (by omega), hop] at h
    cases op with
    | trap kind =>
      obtain ⟨st', ht, h⟩ := bind_eq_ok h
      cases h
      exact .inl ⟨rfl, rfl, rfl, _, applyAbove_triple ht⟩
    | «return» =>
      cases h
      exact .inl ⟨rfl, rfl, rfl, _, neutral_triple rfl⟩
    | ifOp | elseOp | endIf | loop | endLoop | «break» | breakIf => cases hd
    | _ =>
      obtain ⟨st', ht, h⟩ := bind_eq_ok h
      exact .inr ⟨st', fuel, ht, h⟩

theorem interpRegion_break {k : ℕ} (hlt : lo < hi) (hop : ctx.chunk.ops[lo]? = some (.break k))
    (h : interpRegion ctx fuel lo hi st breaks floor = .ok (e, bs)) :
    e = none ∧ bs = breaks ++ [st] := by
  cases fuel with
  | zero => cases h
  | succ fuel =>
    rw [interpRegion, if_neg (by omega), hop] at h
    cases h
    exact ⟨rfl, rfl⟩

theorem interpRegion_breakIf {k : ℕ} (hlt : lo < hi)
    (hop : ctx.chunk.ops[lo]? = some (.breakIf k))
    (h : interpRegion ctx fuel lo hi st breaks floor = .ok (e, bs)) :
    ∃ st' fuel', applyAbove ctx (.breakIf k) lo floor st = .ok st' ∧
      interpRegion ctx fuel' (lo + 1) hi st' (breaks ++ [st']) floor = .ok (e, bs) := by
  cases fuel with
  | zero => cases h
  | succ fuel =>
    rw [interpRegion, if_neg (by omega), hop] at h
    obtain ⟨st', ht, h⟩ := bind_eq_ok h
    exact ⟨st', fuel, ht, h⟩

/-- What follows a branch: the walk goes on, or no path falls through. -/
theorem interpRegion_join {j : Option AbsState} {next : ℕ}
    (h : (match j with
      | some state => interpRegion ctx fuel next hi state breaks floor
      | none => pure (none, breaks)) = .ok (e, bs)) :
    (j = none ∧ e = none ∧ bs = breaks) ∨
      ∃ st', j = some st' ∧ interpRegion ctx fuel next hi st' breaks floor = .ok (e, bs) := by
  cases j with
  | none =>
    cases h
    exact .inl ⟨rfl, rfl, rfl⟩
  | some st' => exact .inr ⟨st', rfl, h⟩

theorem interpRegion_ifThen (hlt : lo < hi) (hop : ctx.chunk.ops[lo]? = some (.ifOp m))
    (hnone : elseBefore ctx.chunk.ops m = none)
    (h : interpRegion ctx fuel lo hi st breaks floor = .ok (e, bs)) :
    ∃ st' fuel' e₁ bs₁ j, applyAbove ctx (.ifOp m) lo floor st = .ok st' ∧
      interpRegion ctx fuel' (lo + 1) m st' breaks floor = .ok (e₁, bs₁) ∧
      joinEnds e₁ (some st') lo = .ok j ∧
      ((j = none ∧ e = none ∧ bs = bs₁) ∨
        ∃ st'', j = some st'' ∧ interpRegion ctx fuel' (m + 1) hi st'' bs₁ floor = .ok (e, bs)) := by
  cases fuel with
  | zero => cases h
  | succ fuel =>
    rw [interpRegion, if_neg (by omega), hop] at h
    obtain ⟨st', ht, h⟩ := bind_eq_ok h
    dsimp only at h
    split at h
    · cases h
    rw [hnone] at h
    obtain ⟨⟨e₁, bs₁⟩, hbody, h⟩ := bind_eq_ok h
    obtain ⟨j, hj, h⟩ := bind_eq_ok h
    exact ⟨st', fuel, e₁, bs₁, j, ht, hbody, hj, interpRegion_join h⟩

theorem interpRegion_ifElse {m' : ℕ} (hlt : lo < hi)
    (hop : ctx.chunk.ops[lo]? = some (.ifOp (m + 1)))
    (hsome : elseBefore ctx.chunk.ops (m + 1) = some m')
    (h : interpRegion ctx fuel lo hi st breaks floor = .ok (e, bs)) :
    ∃ st' fuel' e₁ bs₁ e₂ bs₂ j, applyAbove ctx (.ifOp (m + 1)) lo floor st = .ok st' ∧
      interpRegion ctx fuel' (lo + 1) m st' breaks floor = .ok (e₁, bs₁) ∧
      interpRegion ctx fuel' (m + 1) m' st' bs₁ floor = .ok (e₂, bs₂) ∧
      joinEnds e₁ e₂ lo = .ok j ∧
      ((j = none ∧ e = none ∧ bs = bs₂) ∨
        ∃ st'', j = some st'' ∧
          interpRegion ctx fuel' (m' + 1) hi st'' bs₂ floor = .ok (e, bs)) := by
  cases fuel with
  | zero => cases h
  | succ fuel =>
    rw [interpRegion, if_neg (by omega), hop] at h
    obtain ⟨st', ht, h⟩ := bind_eq_ok h
    dsimp only at h
    split at h
    · cases h
    rw [hsome] at h
    obtain ⟨⟨e₁, bs₁⟩, hthen, h⟩ := bind_eq_ok h
    obtain ⟨⟨e₂, bs₂⟩, helse, h⟩ := bind_eq_ok h
    obtain ⟨j, hj, h⟩ := bind_eq_ok h
    exact ⟨st', fuel, e₁, bs₁, e₂, bs₂, j, ht, hthen, helse, hj, interpRegion_join h⟩

theorem interpRegion_loop (hlt : lo < hi) (hop : ctx.chunk.ops[lo]? = some (.loop (m + 1)))
    (h : interpRegion ctx fuel lo hi st breaks floor = .ok (e, bs)) :
    ∃ fuel' head e₁ bs₁ j, head.stack = st.stack ∧
      interpRegion ctx fuel' (lo + 1) m head [] st.stack.length = .ok (e₁, bs₁) ∧
      (∀ be, e₁ = some be → be.stack = head.stack) ∧ joinAll bs₁ lo = .ok j ∧
      interpRegion ctx fuel' (m + 1) hi (j.getD (e₁.getD head)) breaks floor = .ok (e, bs) := by
  cases fuel with
  | zero => cases h
  | succ fuel =>
    rw [interpRegion, if_neg (by omega), hop] at h
    obtain ⟨⟨head, e₁, bs₁⟩, hfix, h⟩ := bind_eq_ok h
    obtain ⟨j, hj, h⟩ := bind_eq_ok h
    obtain ⟨hhead, hbody, hneutral⟩ := loopFixpoint_ok hfix
    exact ⟨fuel, head, e₁, bs₁, j, hhead, hbody, hneutral, hj, h⟩

theorem heightsOf_append_left {l new : List AbsState} : heightsOf l ⊆ heightsOf (l ++ new) :=
  fun _ ⟨s, hs, hh⟩ => ⟨s, List.mem_append_left _ hs, hh⟩

theorem heightsOf_append_right {l new : List AbsState} : heightsOf new ⊆ heightsOf (l ++ new) :=
  fun _ ⟨s, hs, hh⟩ => ⟨s, List.mem_append_right _ hs, hh⟩

theorem heightAt_some : heightAt (some st) = {st.stack.length} := by
  ext h
  simp [heightAt, heightsOf, eq_comm]

theorem heightAt_none : heightAt none = ∅ := by
  simp [heightAt, heightsOf]

/-- **The typed walk knows the heights.** From the height of its state at the start of a region
every instruction finds its operands, until control leaves at a height of the final states. -/
theorem Region.heights (hr : Region Eq ctx.chunk.ops x lo hi)
    (h : interpRegion ctx fuel lo hi st breaks floor = .ok (e, bs)) :
    ∃ new, bs = breaks ++ new ∧ RegionTriple ctx.chunk.ops heightEff (fun _ => HeightGood) x lo hi
      {st.stack.length} (heightAt e) (heightsOf new) := by
  induction hr generalizing fuel st breaks floor e bs with
  | @nil x lo =>
    refine ⟨[], ?_⟩
    cases fuel with
    | zero => cases h
    | succ fuel =>
      rw [interpRegion_nil] at h
      cases h
      exact ⟨(List.append_nil _).symm, .nil heightAt_some.symm.subset⟩
  | @leaf x lo hi op hop hd rest ih =>
    have hlt : lo < hi := rest.le
    rcases interpRegion_leaf hlt hop hd h with ⟨hn, rfl, rfl, st', ht⟩ | ⟨st', fuel', ht, hrest⟩
    · exact ⟨[], (List.append_nil _).symm, .halt hop hn ht⟩
    · obtain ⟨new, rfl, hr⟩ := ih hrest
      exact ⟨new, rfl, .leaf hop (fun _ => next_leaf hd) (applyAbove_triple ht) hr⟩
  | @«break» k lo hi hop rest ih =>
    obtain ⟨rfl, rfl⟩ := interpRegion_break rest.le hop h
    refine ⟨[st], rfl, .break hop ?_⟩
    have hst : heightsOf [st] = {st.stack.length} := heightAt_some
    rw [hst]
    exact neutral_triple rfl
  | @breakIf k lo hi hop rest ih =>
    obtain ⟨st', fuel', ht, hrest⟩ := interpRegion_breakIf rest.le hop h
    obtain ⟨new, rfl, hr⟩ := ih hrest
    refine ⟨st' :: new, by simp, .breakIf hop (applyAbove_triple ht) ?_ ?_⟩
    · rintro _ rfl
      exact ⟨st', List.mem_cons_self, rfl⟩
    · exact hr.mono (Set.Subset.refl _) (Set.Subset.refl _)
        (heightsOf_append_right (l := [st']))
  | @ifThen x lo m hi hif body hend rest ihb ihr =>
    have hlt : lo < hi := by have := body.le; have := rest.le; omega
    obtain ⟨st', fuel', e₁, bs₁, j, ht, hbody, hj, hrest⟩ :=
      interpRegion_ifThen hlt hif (body.elseBefore_none hif) h
    obtain ⟨new, rfl, hb⟩ := ihb hbody
    have hjoin := joinEnds_heights hj
    rw [heightAt_some] at hjoin
    have hend' : OpTriple heightEff HeightGood .endIf (heightAt e₁ ∪ {st'.stack.length})
        (heightAt j) := (neutral_triple rfl).mono hjoin (Set.Subset.refl _)
    rcases hrest with ⟨rfl, rfl, rfl⟩ | ⟨st'', rfl, hrest⟩
    · refine ⟨new, rfl, .ifThen hif (applyAbove_triple ht) hb hend hend' ?_⟩
      rw [heightAt_none]
      exact .empty
    · obtain ⟨new', rfl, hr⟩ := ihr hrest
      refine ⟨new ++ new', by simp, .ifThen hif (applyAbove_triple ht)
        (hb.mono (Set.Subset.refl _) (Set.Subset.refl _) heightsOf_append_left) hend hend' ?_⟩
      rw [heightAt_some]
      exact hr.mono (Set.Subset.refl _) (Set.Subset.refl _) heightsOf_append_right
  | @ifElse x lo m t m' hi hif thenBody helse hown elseBody hend rest iht ihe ihr =>
    obtain rfl : t = m' := hown
    have hlt : lo < hi := by
      have := thenBody.le; have := elseBody.le; have := rest.le
      omega
    obtain ⟨st', fuel', e₁, bs₁, e₂, bs₂, j, ht, hthen, helse', hj, hrest⟩ :=
      interpRegion_ifElse hlt hif (elseBefore_some helse) h
    obtain ⟨new₁, rfl, h₁⟩ := iht hthen
    obtain ⟨new₂, rfl, h₂⟩ := ihe helse'
    have hend' : OpTriple heightEff HeightGood .endIf (heightAt e₁ ∪ heightAt e₂) (heightAt j) :=
      (neutral_triple rfl).mono (joinEnds_heights hj) (Set.Subset.refl _)
    rcases hrest with ⟨rfl, rfl, rfl⟩ | ⟨st'', rfl, hrest⟩
    · refine ⟨new₁ ++ new₂, by simp, .ifElse hif (applyAbove_triple ht)
        (h₁.mono (Set.Subset.refl _) (Set.Subset.refl _) heightsOf_append_left) helse
        (neutral_triple rfl)
        (h₂.mono (Set.Subset.refl _) (Set.Subset.refl _) heightsOf_append_right) hend hend' ?_⟩
      rw [heightAt_none]
      exact .empty
    · obtain ⟨new', rfl, hr⟩ := ihr hrest
      refine ⟨new₁ ++ (new₂ ++ new'), by simp, .ifElse hif (applyAbove_triple ht)
        (h₁.mono (Set.Subset.refl _) (Set.Subset.refl _) heightsOf_append_left) helse
        (neutral_triple rfl)
        (h₂.mono (Set.Subset.refl _) (Set.Subset.refl _)
          (heightsOf_append_left.trans heightsOf_append_right)) hend hend' ?_⟩
      rw [heightAt_some]
      exact hr.mono (Set.Subset.refl _) (Set.Subset.refl _)
        (heightsOf_append_right.trans heightsOf_append_right)
  | @loop x lo m hi hloop body hend rest ihb ihr =>
    have hlt : lo < hi := by have := body.le; have := rest.le; omega
    obtain ⟨fuel', head, e₁, bs₁, j, hhead, hbody, hneutral, hj, hrest⟩ :=
      interpRegion_loop hlt hloop h
    obtain ⟨_, rfl, hb⟩ := ihb hbody
    obtain ⟨new, rfl, hr⟩ := ihr hrest
    have hexit : heightsOf bs₁ ⊆ {(j.getD (e₁.getD head)).stack.length} := by
      have hsub := joinAll_heights hj
      cases j with
      | none => exact fun h hh => (heightAt_none ▸ hsub hh : h ∈ (∅ : Set ℕ)).elim
      | some s => rwa [heightAt_some] at hsub
    have hback : heightAt e₁ ⊆ {head.stack.length} := by
      rintro _ ⟨s, hs, rfl⟩
      rw [hneutral s (Option.mem_toList.mp hs)]
      rfl
    refine ⟨new, rfl, .loop hloop (neutral_triple rfl) (hb.mono ?_ (Set.Subset.refl _) hexit) hend
      ((neutral_triple rfl).mono hback ?_) hr⟩
    · rw [hhead]
    · rw [hhead]

end Interp

end Keleusma
