import Keleusma.Verify.RunOff

/-!
# Balanced regions

In an accepted chunk the height of the operand stack at a position does not depend on the way
control took. `Balanced` is a tree of blocks with its heights: at the start, at the end where
control comes there, and at the breaks. The typed pass finds one (`Region.balanced`), and its
heights are those that control reaches (`Balanced.flows`).
-/

namespace Keleusma

/-- A region with the height at its start, the height at its end where control comes there, and the
heights at the breaks of the loop around. -/
inductive Balanced (ops : List Op) : Option ℕ → ℕ → ℕ → ℕ → Option ℕ → List ℕ → Prop
  | nil {x : Option ℕ} {lo h : ℕ} : Balanced ops x lo lo h (some h) []
  | leaf {x e : Option ℕ} {lo hi h : ℕ} {op : Op} {bs : List ℕ} (hop : ops[lo]? = some op)
      (hd : op.isDelimiter = false) (hreq : opRequires op ≤ h) (hnext : lo + 1 ∈ op.next lo)
      (rest : Balanced ops x (lo + 1) hi (h - opRequires op + opProduces op) e bs) :
      Balanced ops x lo hi h e bs
  | halt {x : Option ℕ} {lo hi h : ℕ} {op : Op} (hop : ops[lo]? = some op)
      (hd : op.isDelimiter = false) (hreq : opRequires op ≤ h) (hnext : op.next lo = [])
      (rest : Region Eq ops x (lo + 1) hi) : Balanced ops x lo hi h none []
  | break {k lo hi h : ℕ} (hop : ops[lo]? = some (.break k))
      (rest : Region Eq ops (some k) (lo + 1) hi) : Balanced ops (some k) lo hi h none [h]
  | breakIf {k lo hi h : ℕ} {e : Option ℕ} {bs : List ℕ} (hop : ops[lo]? = some (.breakIf k))
      (hreq : 1 ≤ h) (rest : Balanced ops (some k) (lo + 1) hi (h - 1) e bs) :
      Balanced ops (some k) lo hi h e ((h - 1) :: bs)
  | ifThen {x e e₁ : Option ℕ} {lo m hi h : ℕ} {bs bs₁ : List ℕ} (hif : ops[lo]? = some (.ifOp m))
      (hreq : 1 ≤ h) (hregion : Region Eq ops x (lo + 1) m)
      (body : Balanced ops x (lo + 1) m (h - 1) e₁ bs₁) (hjoin : ∀ h' ∈ e₁, h' = h - 1)
      (hend : ops[m]? = some .endIf) (rest : Balanced ops x (m + 1) hi (h - 1) e bs) :
      Balanced ops x lo hi h e (bs₁ ++ bs)
  | ifElse {x e e₁ e₂ : Option ℕ} {lo m t hi h j : ℕ} {bs bs₁ bs₂ : List ℕ}
      (hif : ops[lo]? = some (.ifOp (m + 1))) (hreq : 1 ≤ h)
      (thenBody : Balanced ops x (lo + 1) m (h - 1) e₁ bs₁)
      (helse : ops[m]? = some (.elseOp t)) (elseBody : Balanced ops x (m + 1) t (h - 1) e₂ bs₂)
      (hend : ops[t]? = some .endIf) (hcomes : e₁.isSome ∨ e₂.isSome)
      (hjoin : ∀ h', h' ∈ e₁ ∨ h' ∈ e₂ → h' = j) (rest : Balanced ops x (t + 1) hi j e bs) :
      Balanced ops x lo hi h e (bs₁ ++ (bs₂ ++ bs))
  | ifLeaves {x : Option ℕ} {lo m t hi h : ℕ} {bs₁ bs₂ : List ℕ}
      (hif : ops[lo]? = some (.ifOp (m + 1))) (hreq : 1 ≤ h)
      (thenBody : Balanced ops x (lo + 1) m (h - 1) none bs₁)
      (helse : ops[m]? = some (.elseOp t)) (elseBody : Balanced ops x (m + 1) t (h - 1) none bs₂)
      (hend : ops[t]? = some .endIf) (rest : Region Eq ops x (t + 1) hi) :
      Balanced ops x lo hi h none (bs₁ ++ bs₂)
  | loop {x e e₁ : Option ℕ} {lo m hi h j : ℕ} {bs bs₁ : List ℕ}
      (hloop : ops[lo]? = some (.loop (m + 1)))
      (body : Balanced ops (some (m + 1)) (lo + 1) m h e₁ bs₁) (hback : ∀ h' ∈ e₁, h' = h)
      (hend : ops[m]? = some (.endLoop (lo + 1))) (hleaves : bs₁ ≠ []) (hexit : ∀ b ∈ bs₁, b = j)
      (rest : Balanced ops x (m + 1) hi j e bs) : Balanced ops x lo hi h e bs
  | loopStays {x e₁ : Option ℕ} {lo m hi h : ℕ} (hloop : ops[lo]? = some (.loop (m + 1)))
      (body : Balanced ops (some (m + 1)) (lo + 1) m h e₁ []) (hback : ∀ h' ∈ e₁, h' = h)
      (hend : ops[m]? = some (.endLoop (lo + 1))) (rest : Region Eq ops x (m + 1) hi) :
      Balanced ops x lo hi h none []

variable {ops : List Op} {x e : Option ℕ} {lo hi h : ℕ} {bs : List ℕ}

theorem Balanced.le (hb : Balanced ops x lo hi h e bs) : lo ≤ hi := by
  induction hb with
  | nil => exact le_rfl
  | leaf _ _ _ _ _ ih => omega
  | halt _ _ _ _ rest => have := rest.le; omega
  | «break» _ rest => have := rest.le; omega
  | breakIf _ _ _ ih => omega
  | ifThen _ _ _ _ _ _ _ ihb ihr => omega
  | ifElse _ _ _ _ _ _ _ _ _ iht ihe ihr => omega
  | ifLeaves _ _ _ _ _ _ rest iht ihe => have := rest.le; omega
  | loop _ _ _ _ _ _ _ ihb ihr => omega
  | loopStays _ _ _ _ rest ihb => have := rest.le; omega

/-! ## The heights that control reaches -/

theorem FlowReaches.at_next {op : Op} {p q h h' : ℕ} (hr : FlowReaches ops heightEff 0 p h)
    (hop : ops[p]? = some op) (hq : q ∈ op.next p) (hreq : opRequires op ≤ h)
    (heq : h' = h - opRequires op + opProduces op) : FlowReaches ops heightEff 0 q h' :=
  hr.next hop hq ⟨hreq, heq⟩

/-- Control comes behind a branch from the side that comes to its end. -/
theorem flows_meet {e₁ e₂ : Option ℕ} {m t j : ℕ} (helse : ops[m]? = some (.elseOp t))
    (hend : ops[t]? = some .endIf) (hcomes : e₁.isSome ∨ e₂.isSome)
    (hjoin : ∀ h', h' ∈ e₁ ∨ h' ∈ e₂ → h' = j)
    (hthen : ∀ h' ∈ e₁, FlowReaches ops heightEff 0 m h')
    (helse' : ∀ h' ∈ e₂, FlowReaches ops heightEff 0 t h') :
    FlowReaches ops heightEff 0 (t + 1) j := by
  have hmeet : FlowReaches ops heightEff 0 t j := by
    rcases hcomes with hsome | hsome
    · obtain ⟨h', hh⟩ := Option.isSome_iff_exists.mp hsome
      obtain rfl := hjoin h' (.inl hh)
      exact (hthen h' hh).at_next helse (List.mem_singleton_self t) (Nat.zero_le _) rfl
    · obtain ⟨h', hh⟩ := Option.isSome_iff_exists.mp hsome
      obtain rfl := hjoin h' (.inr hh)
      exact helse' h' hh
  exact hmeet.at_next hend (List.mem_singleton_self _) (Nat.zero_le _) rfl

/-- **From the height at the start control reaches the heights at the end and at the breaks.** -/
theorem Balanced.flows (hb : Balanced ops x lo hi h e bs)
    (hr : FlowReaches ops heightEff 0 lo h) :
    (∀ h' ∈ e, FlowReaches ops heightEff 0 hi h') ∧
      ∀ k, x = some k → ∀ b ∈ bs, FlowReaches ops heightEff 0 k b := by
  have happend {k : ℕ} {l l' : List ℕ} (hl : ∀ b ∈ l, FlowReaches ops heightEff 0 k b)
      (hl' : ∀ b ∈ l', FlowReaches ops heightEff 0 k b) :
      ∀ b ∈ l ++ l', FlowReaches ops heightEff 0 k b :=
    List.forall_mem_append.mpr ⟨hl, hl'⟩
  induction hb with
  | nil =>
    refine ⟨fun h' hh => ?_, fun _ _ => List.forall_mem_nil _⟩
    obtain rfl := Option.mem_some_iff.mp hh
    exact hr
  | leaf hop hd hreq hnext rest ih => exact ih (hr.at_next hop hnext hreq rfl)
  | halt => exact ⟨by rintro _ ⟨⟩, fun _ _ => List.forall_mem_nil _⟩
  | @«break» k lo hi h hop rest =>
    refine ⟨by rintro _ ⟨⟩, fun k' hk => List.forall_mem_singleton.mpr ?_⟩
    obtain rfl := Option.some.inj hk
    exact hr.at_next hop (List.mem_singleton_self k) (Nat.zero_le h) rfl
  | @breakIf k lo hi h e bs hop hreq rest ih =>
    obtain ⟨hends, hbreaks⟩ := ih (hr.at_next hop List.mem_cons_self hreq rfl)
    refine ⟨hends, fun k' hk => List.forall_mem_cons.mpr ⟨?_, hbreaks k' hk⟩⟩
    obtain rfl := Option.some.inj hk
    exact hr.at_next hop (List.mem_cons_of_mem _ (List.mem_singleton_self k)) hreq rfl
  | @ifThen x e e₁ lo m hi h bs bs₁ hif hreq hregion body hjoin hend rest ihb ihr =>
    obtain ⟨-, hbreaks⟩ := ihb (hr.at_next hif List.mem_cons_self hreq rfl)
    have hskip : FlowReaches ops heightEff 0 m (h - 1) :=
      hr.at_next hif (List.mem_cons_of_mem _ (List.mem_singleton_self m)) hreq rfl
    obtain ⟨hends, hbreaks'⟩ :=
      ihr (hskip.at_next hend (List.mem_singleton_self _) (Nat.zero_le _) rfl)
    exact ⟨hends, fun k hk => happend (hbreaks k hk) (hbreaks' k hk)⟩
  | @ifElse x e e₁ e₂ lo m t hi h j bs bs₁ bs₂ hif hreq thenBody helse elseBody hend hcomes hjoin
      rest iht ihe ihr =>
    obtain ⟨hthen, hbreaks₁⟩ := iht (hr.at_next hif List.mem_cons_self hreq rfl)
    obtain ⟨helse', hbreaks₂⟩ :=
      ihe (hr.at_next hif (List.mem_cons_of_mem _ (List.mem_singleton_self _)) hreq rfl)
    obtain ⟨hends, hbreaks⟩ := ihr (flows_meet helse hend hcomes hjoin hthen helse')
    exact ⟨hends, fun k hk => happend (hbreaks₁ k hk) (happend (hbreaks₂ k hk) (hbreaks k hk))⟩
  | ifLeaves hif hreq thenBody helse elseBody hend rest iht ihe =>
    obtain ⟨-, hbreaks₁⟩ := iht (hr.at_next hif List.mem_cons_self hreq rfl)
    obtain ⟨-, hbreaks₂⟩ :=
      ihe (hr.at_next hif (List.mem_cons_of_mem _ (List.mem_singleton_self _)) hreq rfl)
    exact ⟨by rintro _ ⟨⟩, fun k hk => happend (hbreaks₁ k hk) (hbreaks₂ k hk)⟩
  | @loop x e e₁ lo m hi h j bs bs₁ hloop body hback hend hleaves hexit rest ihb ihr =>
    obtain ⟨-, hbreaks⟩ :=
      ihb (hr.at_next hloop (List.mem_singleton_self _) (Nat.zero_le h) rfl)
    obtain ⟨b, hb⟩ := List.exists_mem_of_ne_nil bs₁ hleaves
    obtain rfl := hexit b hb
    exact ihr (hbreaks (m + 1) rfl b hb)
  | loopStays => exact ⟨by rintro _ ⟨⟩, fun _ _ => List.forall_mem_nil _⟩

/-! ## The front of a region -/

/-- **A front of a region that is a sequence of blocks is balanced as well.** -/
theorem Balanced.front {m : ℕ} (hr : Region Eq ops x lo m) (hb : Balanced ops x lo hi h e bs)
    (hm : m ≤ hi) : ∃ e' bs', Balanced ops x lo m h e' bs' := by
  induction hr generalizing h bs with
  | nil => exact ⟨_, _, .nil⟩
  | @leaf x lo m op hop hd rest ih =>
    have hlt := rest.le
    cases hb with
    | nil => omega
    | leaf hop' _ hreq hnext hb =>
      cases hop.symm.trans hop'
      obtain ⟨e', bs', hb'⟩ := ih hb hm
      exact ⟨e', bs', .leaf hop hd hreq hnext hb'⟩
    | halt hop' _ hreq hnext =>
      cases hop.symm.trans hop'
      exact ⟨none, [], .halt hop hd hreq hnext rest⟩
    | «break» hop' | breakIf hop' | ifThen hop' | ifElse hop' | ifLeaves hop' | loop hop'
    | loopStays hop' =>
      cases hop.symm.trans hop'
      cases hd
  | @«break» k lo m hop rest ih =>
    have hlt := rest.le
    cases hb with
    | nil => omega
    | «break» => exact ⟨none, _, .break hop rest⟩
    | leaf hop' hd | halt hop' hd =>
      cases hop.symm.trans hop'
      cases hd
    | breakIf hop' | ifThen hop' | ifElse hop' | ifLeaves hop' | loop hop' | loopStays hop' =>
      cases hop.symm.trans hop'
  | @breakIf k lo m hop rest ih =>
    have hlt := rest.le
    cases hb with
    | nil => omega
    | breakIf _ hreq hb =>
      obtain ⟨e', bs', hb'⟩ := ih hb hm
      exact ⟨e', _, .breakIf hop hreq hb'⟩
    | leaf hop' hd | halt hop' hd =>
      cases hop.symm.trans hop'
      cases hd
    | «break» hop' | ifThen hop' | ifElse hop' | ifLeaves hop' | loop hop' | loopStays hop' =>
      cases hop.symm.trans hop'
  | @ifThen x lo t m hif body hend rest ihb ihr =>
    have hle := body.le
    have hlt := rest.le
    cases hb with
    | nil => omega
    | leaf hop' hd | halt hop' hd =>
      cases hif.symm.trans hop'
      cases hd
    | «break» hop' | breakIf hop' | loop hop' | loopStays hop' => cases hif.symm.trans hop'
    | ifThen hif' hreq hregion hb₁ hjoin _ hb =>
      cases hif.symm.trans hif'
      obtain ⟨e', bs', hb'⟩ := ihr hb hm
      exact ⟨e', _, .ifThen hif hreq hregion hb₁ hjoin hend hb'⟩
    | ifElse hif' _ _ helse | ifLeaves hif' _ _ helse =>
      cases hif.symm.trans hif'
      cases (body.elseBefore_none hif).symm.trans (elseBefore_some helse)
  | @ifElse x lo q t t' m hif thenBody helse hown elseBody hend rest iht ihe ihr =>
    obtain rfl : t = t' := hown
    have hle := thenBody.le
    have hle' := elseBody.le
    have hlt := rest.le
    cases hb with
    | nil => omega
    | leaf hop' hd | halt hop' hd =>
      cases hif.symm.trans hop'
      cases hd
    | «break» hop' | breakIf hop' | loop hop' | loopStays hop' => cases hif.symm.trans hop'
    | ifThen hif' _ hregion =>
      cases hif.symm.trans hif'
      cases (hregion.elseBefore_none hif).symm.trans (elseBefore_some helse)
    | ifElse hif' hreq hb₁ helse' hb₂ _ hcomes hjoin hb =>
      cases hif.symm.trans hif'
      cases helse.symm.trans helse'
      obtain ⟨e', bs', hb'⟩ := ihr hb hm
      exact ⟨e', _, .ifElse hif hreq hb₁ helse hb₂ hend hcomes hjoin hb'⟩
    | ifLeaves hif' hreq hb₁ helse' hb₂ =>
      cases hif.symm.trans hif'
      cases helse.symm.trans helse'
      exact ⟨none, _, .ifLeaves hif hreq hb₁ helse hb₂ hend rest⟩
  | @loop x lo t m hloop body hend rest ihb ihr =>
    have hle := body.le
    have hlt := rest.le
    cases hb with
    | nil => omega
    | leaf hop' hd | halt hop' hd =>
      cases hloop.symm.trans hop'
      cases hd
    | «break» hop' | breakIf hop' | ifThen hop' | ifElse hop' | ifLeaves hop' =>
      cases hloop.symm.trans hop'
    | loop hloop' hb₁ hback _ hleaves hexit hb =>
      cases hloop.symm.trans hloop'
      obtain ⟨e', bs', hb'⟩ := ihr hb hm
      exact ⟨e', bs', .loop hloop hb₁ hback hend hleaves hexit hb'⟩
    | loopStays hloop' hb₁ hback =>
      cases hloop.symm.trans hloop'
      exact ⟨none, [], .loopStays hloop hb₁ hback hend rest⟩

/-- Behind an instruction that goes on to the next one a region is balanced as well. -/
theorem Balanced.tail {op : Op} (hb : Balanced ops x lo hi h e bs) (hlt : lo < hi)
    (hop : ops[lo]? = some op) (hd : op.isDelimiter = false) (hnext : op.next lo ≠ []) :
    Balanced ops x (lo + 1) hi (h - opRequires op + opProduces op) e bs := by
  cases hb with
  | nil => exact absurd hlt (lt_irrefl lo)
  | leaf hop' _ _ _ rest =>
    cases hop.symm.trans hop'
    exact rest
  | halt hop' _ _ hnil =>
    cases hop.symm.trans hop'
    exact absurd hnil hnext
  | «break» hop' | breakIf hop' | ifThen hop' | ifElse hop' | ifLeaves hop' | loop hop'
  | loopStays hop' =>
    cases hop.symm.trans hop'
    cases hd

/-! ## The typed pass finds the heights -/

section Typed

variable {ctx : TypedCtx} {own : ℕ → ℕ → Prop} {m fuel floor : ℕ} {st : AbsState}
  {breaks new : List AbsState} {r : Option AbsState}

/-- Where control comes to the end of a region, the pass does so at the same height. -/
def EndsAt (e : Option ℕ) (r : Option AbsState) : Prop :=
  ∀ h ∈ e, ∃ s ∈ r, s.stack.length = h

theorem EndsAt.none {r : Option AbsState} : EndsAt Option.none r := by
  rintro _ ⟨⟩

theorem EndsAt.some : EndsAt (Option.some st.stack.length) (Option.some st) := by
  rintro _ ⟨⟩
  exact ⟨st, rfl, rfl⟩

theorem next_leaf_mem {op : Op} {ip : ℕ} (hd : op.isDelimiter = false) (h : op.next ip ≠ []) :
    ip + 1 ∈ op.next ip := by
  obtain ⟨p, hp⟩ := List.exists_mem_of_ne_nil _ h
  rwa [next_leaf hd hp] at hp

theorem OpTriple.requires {op : Op} {P : Set ℕ}
    (h : OpTriple heightEff HeightGood op {st.stack.length} P) : opRequires op ≤ st.stack.length :=
  (h _ rfl).1

/-- An instruction changes the height of the abstract state by its effect. -/
theorem applyAbove_height {op : Op} {ip : ℕ} {st' : AbsState}
    (h : applyAbove ctx op ip floor st = .ok st') : opRequires op ≤ st.stack.length ∧
      st'.stack.length = st.stack.length - opRequires op + opProduces op := by
  obtain ⟨hreq, hnext⟩ := applyAbove_triple h _ rfl
  exact ⟨hreq, (hnext _ ⟨hreq, rfl⟩).symm⟩

/-- The heights of the ends that fall through are that of their join. -/
theorem joinEnds_height {a b j : Option AbsState} {ip : ℕ} (h : joinEnds a b ip = .ok j) {s : AbsState}
    (hs : s ∈ a ∨ s ∈ b) : ∃ t, j = some t ∧ s.stack.length = t.stack.length := by
  have hsub := joinEnds_heights h
  have hmem : s.stack.length ∈ heightAt a ∪ heightAt b :=
    hs.imp (fun hs => ⟨s, Option.mem_toList.mpr hs, rfl⟩) fun hs => ⟨s, Option.mem_toList.mpr hs, rfl⟩
  obtain ⟨t, ht, heq⟩ := hsub hmem
  exact ⟨t, Option.mem_toList.mp ht, heq.symm⟩

/-- **The typed pass finds the heights of a region.** -/
theorem Region.balanced {r : Option AbsState} (hr : Region Eq ctx.chunk.ops x lo hi)
    (h : interpRegion ctx fuel lo hi st breaks floor = .ok (r, new)) :
    ∃ e bs, Balanced ctx.chunk.ops x lo hi st.stack.length e bs ∧ EndsAt e r ∧
      ∀ b ∈ bs, b ∈ heightsOf new := by
  have hprefix {x : Option ℕ} {fuel lo hi floor : ℕ} {st : AbsState} {breaks new : List AbsState}
      {r : Option AbsState} (hr : Region Eq ctx.chunk.ops x lo hi)
      (h : interpRegion ctx fuel lo hi st breaks floor = .ok (r, new)) :
      heightsOf breaks ⊆ heightsOf new := by
    obtain ⟨more, rfl, -⟩ := Region.heights hr h
    exact heightsOf_append_left
  induction hr generalizing fuel st breaks floor r new with
  | @nil x lo =>
    cases fuel with
    | zero => cases h
    | succ fuel =>
      rw [interpRegion_nil] at h
      cases h
      exact ⟨_, _, .nil, .some, List.forall_mem_nil _⟩
  | @leaf x lo hi op hop hd rest ih =>
    rcases interpRegion_leaf rest.le hop hd h with ⟨hn, rfl, rfl, P, ht⟩ | ⟨st', fuel', ht, hrest⟩
    · exact ⟨_, _, .halt hop hd ht.requires hn rest, .none, List.forall_mem_nil _⟩
    · obtain ⟨hreq, hlen⟩ := applyAbove_height ht
      by_cases hn : op.next lo = []
      · exact ⟨_, _, .halt hop hd hreq hn rest, .none, List.forall_mem_nil _⟩
      · obtain ⟨e, bs, hb, he, hbs⟩ := ih hrest
        rw [hlen] at hb
        exact ⟨e, bs, .leaf hop hd hreq (next_leaf_mem hd hn) hb, he, hbs⟩
  | @«break» k lo hi hop rest ih =>
    obtain ⟨rfl, rfl⟩ := interpRegion_break rest.le hop h
    exact ⟨_, _, .break hop rest, .none, List.forall_mem_singleton.mpr
      ⟨st, List.mem_append_right _ (List.mem_singleton_self st), rfl⟩⟩
  | @breakIf k lo hi hop rest ih =>
    obtain ⟨st', fuel', ht, hrest⟩ := interpRegion_breakIf rest.le hop h
    obtain ⟨hreq, hlen⟩ := applyAbove_height ht
    obtain ⟨e, bs, hb, he, hbs⟩ := ih hrest
    have hbreak := hprefix rest hrest
      ⟨st', List.mem_append_right _ (List.mem_singleton_self st'), rfl⟩
    rw [show st'.stack.length = st.stack.length - 1 from hlen] at hb hbreak
    exact ⟨e, _, .breakIf hop hreq hb, he, List.forall_mem_cons.mpr ⟨hbreak, hbs⟩⟩
  | @ifThen x lo m hi hif body hend rest ihb ihr =>
    have hlt : lo < hi := by have := body.le; have := rest.le; omega
    obtain ⟨st', fuel', r₁, new₁, j, ht, hbody, hj, hrest⟩ :=
      interpRegion_ifThen hlt hif (body.elseBefore_none hif) h
    obtain ⟨hreq, hlen⟩ := applyAbove_height ht
    obtain ⟨e₁, bs₁, hb₁, he₁, hbs₁⟩ := ihb hbody
    obtain ⟨t, rfl, hjlen⟩ := joinEnds_height hj (.inr (Option.mem_some_self st'))
    have hlen' : st'.stack.length = st.stack.length - 1 := hlen
    have hjoin : ∀ h ∈ e₁, h = st.stack.length - 1 := by
      intro h hh
      obtain ⟨s, hs, rfl⟩ := he₁ h hh
      obtain ⟨t', ht', hslen⟩ := joinEnds_height hj (.inl hs)
      obtain rfl := Option.some.inj ht'
      omega
    rcases hrest with ⟨hnone, -⟩ | ⟨s, hs, hrest⟩
    · cases hnone
    · obtain rfl := Option.some.inj hs
      obtain ⟨e, bs, hb, he, hbs⟩ := ihr hrest
      rw [hlen'] at hb₁
      rw [← hjlen, hlen'] at hb
      exact ⟨e, _, .ifThen hif hreq body hb₁ hjoin hend hb, he, List.forall_mem_append.mpr
        ⟨fun b hmem => hprefix rest hrest (hbs₁ b hmem), hbs⟩⟩
  | @ifElse x lo m t m' hi hif thenBody helse hown elseBody hend rest iht ihe ihr =>
    obtain rfl : t = m' := hown
    have hlt : lo < hi := by
      have := thenBody.le; have := elseBody.le; have := rest.le
      omega
    obtain ⟨st', fuel', r₁, new₁, r₂, new₂, j, ht, hthen, helse', hj, hrest⟩ :=
      interpRegion_ifElse hlt hif (elseBefore_some helse) h
    obtain ⟨hreq, hlen⟩ := applyAbove_height ht
    obtain ⟨e₁, bs₁, hb₁, he₁, hbs₁⟩ := iht hthen
    obtain ⟨e₂, bs₂, hb₂, he₂, hbs₂⟩ := ihe helse'
    rw [show st'.stack.length = st.stack.length - 1 from hlen] at hb₁ hb₂
    -- the ends that control comes to meet at the height of their join
    have hmeet : ∀ h, h ∈ e₁ ∨ h ∈ e₂ → ∃ s, j = some s ∧ h = s.stack.length := by
      rintro h (hh | hh)
      · obtain ⟨s, hs, rfl⟩ := he₁ h hh
        exact joinEnds_height hj (.inl hs)
      · obtain ⟨s, hs, rfl⟩ := he₂ h hh
        exact joinEnds_height hj (.inr hs)
    have hbreaks : ∀ b ∈ bs₁ ++ bs₂, b ∈ heightsOf new₂ :=
      List.forall_mem_append.mpr ⟨fun b hmem => hprefix elseBody helse' (hbs₁ b hmem), hbs₂⟩
    have hleaves (hnone : ∀ h, ¬(h ∈ e₁ ∨ h ∈ e₂)) (hsub : heightsOf new₂ ⊆ heightsOf new) :
        ∃ e bs, Balanced ctx.chunk.ops x lo hi st.stack.length e bs ∧ EndsAt e r ∧
          ∀ b ∈ bs, b ∈ heightsOf new := by
      obtain rfl : e₁ = none := Option.eq_none_iff_forall_not_mem.mpr fun h hh => hnone h (.inl hh)
      obtain rfl : e₂ = none := Option.eq_none_iff_forall_not_mem.mpr fun h hh => hnone h (.inr hh)
      exact ⟨none, _, .ifLeaves hif hreq hb₁ helse hb₂ hend rest, .none, fun b hb => hsub (hbreaks b hb)⟩
    rcases hrest with ⟨rfl, rfl, rfl⟩ | ⟨s, rfl, hrest⟩
    · refine hleaves (fun h hh => ?_) (Set.Subset.refl _)
      obtain ⟨s, hs, -⟩ := hmeet h hh
      cases hs
    · have hsub := hprefix rest hrest
      by_cases hcomes : ∃ h, h ∈ e₁ ∨ h ∈ e₂
      · obtain ⟨e, bs, hb, he, hbs⟩ := ihr hrest
        have hjoin : ∀ h, h ∈ e₁ ∨ h ∈ e₂ → h = s.stack.length := by
          intro h hh
          obtain ⟨s', hs', heq⟩ := hmeet h hh
          obtain rfl := Option.some.inj hs'
          exact heq
        have hsome : e₁.isSome ∨ e₂.isSome := by
          obtain ⟨h, hh⟩ := hcomes
          exact hh.imp (fun hh => Option.isSome_iff_exists.mpr ⟨h, hh⟩)
            fun hh => Option.isSome_iff_exists.mpr ⟨h, hh⟩
        refine ⟨e, _, .ifElse hif hreq hb₁ helse hb₂ hend hsome hjoin hb, he, ?_⟩
        rw [← List.append_assoc]
        exact List.forall_mem_append.mpr ⟨fun b hmem => hsub (hbreaks b hmem), hbs⟩
      · exact hleaves (fun h hh => hcomes ⟨h, hh⟩) hsub
  | @loop x lo m hi hloop body hend rest ihb ihr =>
    have hlt : lo < hi := by have := body.le; have := rest.le; omega
    obtain ⟨fuel', head, r₁, new₁, j, hhead, hbody, hneutral, hj, hrest⟩ :=
      interpRegion_loop hlt hloop h
    obtain ⟨e₁, bs₁, hb₁, he₁, hbs₁⟩ := ihb hbody
    have hback : ∀ h ∈ e₁, h = head.stack.length := by
      intro h hh
      obtain ⟨s, hs, rfl⟩ := he₁ h hh
      rw [hneutral s hs]
    rw [hhead] at hb₁ hback
    by_cases hleaves : bs₁ = []
    · subst hleaves
      exact ⟨none, [], .loopStays hloop hb₁ hback hend rest, .none, List.forall_mem_nil _⟩
    · -- the breaks leave at the height of their join
      have hexits := joinAll_heights hj
      obtain ⟨b, hb⟩ := List.exists_mem_of_ne_nil bs₁ hleaves
      obtain ⟨s, hs, -⟩ := hexits (hbs₁ b hb)
      obtain rfl := Option.mem_toList.mp hs
      have hexit : ∀ b ∈ bs₁, b = s.stack.length := by
        intro b hb
        have hmem := hexits (hbs₁ b hb)
        rwa [heightAt_some] at hmem
      obtain ⟨e, bs, hrec, he, hbs⟩ := ihr hrest
      exact ⟨e, bs, .loop hloop hb₁ hback hend hleaves hexit hrec, he, hbs⟩

end Typed

/-- **An accepted chunk is balanced.** -/
theorem accepted_balanced {md : Module} (hv : verify md = .ok ()) {i : ℕ} {c : Chunk}
    (hc : md.chunks[i]? = some c) (hm : ElseMatched c.ops) :
    ∃ e bs, Balanced c.ops none 0 c.ops.length 0 e bs := by
  have hnested := (verify_chunkAccepted hv (List.mem_of_getElem? hc)).wellNested hm
  obtain ⟨⟨r, new⟩, hwalk, -⟩ := bind_eq_ok (verify_typed hv hc)
  obtain ⟨e, bs, hb, -⟩ :=
    Region.balanced (show Region Eq (md.typedCtx i c).chunk.ops _ _ _ from hnested) hwalk
  exact ⟨e, bs, hb⟩

end Keleusma
