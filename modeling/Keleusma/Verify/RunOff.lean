import Keleusma.Verify.Heights

/-!
# No chunk runs off its end

The depth pass refuses a chunk in which control can fall out of its last instruction. In an
accepted chunk with matched `Else` operands every position that control can reach from the entry
is that of an instruction, and the operands of the instruction are on the stack
(`accepted_heights`).
-/

namespace Keleusma

variable {ops : List Op} {op : Op} {x : Option ℕ} {lo m hi : ℕ}

/-! ## The walk of the depth pass -/

section Depth

variable {fuel nest : ℕ} {depth : Int} {breaks bs : List Int} {e : Option Int}

/-- What the walk does within its limits. -/
theorem verifyDepthRegionAt_succ (hlt : lo < hi) (hop : ops[lo]? = some op)
    (h : verifyDepthRegionAt ops fuel lo hi depth breaks nest = .ok (e, bs)) :
    ∃ fuel', fuel = fuel' + 1 ∧ ¬maxRegionDepth < nest ∧ ¬min hi ops.length ≤ lo := by
  have hlen := (List.getElem?_eq_some_iff.mp hop).1
  cases fuel with
  | zero => cases h
  | succ fuel => exact ⟨fuel, rfl, verifyDepthRegionAt_nest h, by omega⟩

theorem verifyDepthRegionAt_leaf (hlt : lo < hi) (hop : ops[lo]? = some op)
    (hd : op.isDelimiter = false)
    (h : verifyDepthRegionAt ops fuel lo hi depth breaks nest = .ok (e, bs)) :
    op.next lo = [] ∨ ∃ fuel' depth',
      verifyDepthRegionAt ops fuel' (lo + 1) hi depth' breaks nest = .ok (e, bs) := by
  obtain ⟨fuel, rfl, hn, hl⟩ := verifyDepthRegionAt_succ hlt hop h
  rw [verifyDepthRegionAt, if_neg hn, if_neg hl, hop] at h
  cases op with
  | trap | «return» | reset => exact .inl rfl
  | ifOp | elseOp | endIf | loop | endLoop | «break» | breakIf => cases hd
  | _ =>
    obtain ⟨_, -, h⟩ := bind_eq_ok h
    exact .inr ⟨fuel, _, h⟩

theorem verifyDepthRegionAt_breakIf {k : ℕ} (hlt : lo < hi) (hop : ops[lo]? = some (.breakIf k))
    (h : verifyDepthRegionAt ops fuel lo hi depth breaks nest = .ok (e, bs)) :
    ∃ fuel' depth' breaks',
      verifyDepthRegionAt ops fuel' (lo + 1) hi depth' breaks' nest = .ok (e, bs) := by
  obtain ⟨fuel, rfl, hn, hl⟩ := verifyDepthRegionAt_succ hlt hop h
  rw [verifyDepthRegionAt, if_neg hn, if_neg hl, hop] at h
  obtain ⟨_, -, h⟩ := bind_eq_ok h
  exact ⟨fuel, _, _, h⟩

theorem verifyDepthRegionAt_ifThen (hlt : lo < hi) (hop : ops[lo]? = some (.ifOp m))
    (hnone : elseBefore ops m = none)
    (h : verifyDepthRegionAt ops fuel lo hi depth breaks nest = .ok (e, bs)) :
    ∃ fuel' depth' e₁ bs₁ depth'',
      verifyDepthRegionAt ops fuel' (lo + 1) m depth' breaks (nest + 1) = .ok (e₁, bs₁) ∧
      verifyDepthRegionAt ops fuel' (m + 1) hi depth'' bs₁ nest = .ok (e, bs) := by
  obtain ⟨fuel, rfl, hn, hl⟩ := verifyDepthRegionAt_succ hlt hop h
  rw [verifyDepthRegionAt, if_neg hn, if_neg hl, hop] at h
  obtain ⟨_, -, h⟩ := bind_eq_ok h
  dsimp only at h
  rw [hnone] at h
  obtain ⟨⟨e₁, bs₁⟩, hbody, h⟩ := bind_eq_ok h
  exact ⟨fuel, _, e₁, bs₁, _, hbody, h⟩

theorem verifyDepthRegionAt_ifElse {m' : ℕ} (hlt : lo < hi)
    (hop : ops[lo]? = some (.ifOp (m + 1))) (hsome : elseBefore ops (m + 1) = some m')
    (h : verifyDepthRegionAt ops fuel lo hi depth breaks nest = .ok (e, bs)) :
    ∃ fuel' depth' e₁ bs₁ e₂ bs₂,
      verifyDepthRegionAt ops fuel' (lo + 1) m depth' breaks (nest + 1) = .ok (e₁, bs₁) ∧
      verifyDepthRegionAt ops fuel' (m + 1) m' depth' bs₁ (nest + 1) = .ok (e₂, bs₂) ∧
      ((e₁ = none ∧ e₂ = none) ∨ ∃ depth'',
        verifyDepthRegionAt ops fuel' (m' + 1) hi depth'' bs₂ nest = .ok (e, bs)) := by
  obtain ⟨fuel, rfl, hn, hl⟩ := verifyDepthRegionAt_succ hlt hop h
  rw [verifyDepthRegionAt, if_neg hn, if_neg hl, hop] at h
  obtain ⟨_, -, h⟩ := bind_eq_ok h
  dsimp only at h
  rw [hsome] at h
  obtain ⟨⟨e₁, bs₁⟩, hthen, h⟩ := bind_eq_ok h
  obtain ⟨⟨e₂, bs₂⟩, helse, h⟩ := bind_eq_ok h
  refine ⟨fuel, _, e₁, bs₁, e₂, bs₂, hthen, helse, ?_⟩
  cases e₁ <;> cases e₂
  · exact .inl ⟨rfl, rfl⟩
  · exact .inr ⟨_, h⟩
  · exact .inr ⟨_, h⟩
  · exact .inr ⟨_, h⟩

theorem verifyDepthRegionAt_loop (hlt : lo < hi) (hop : ops[lo]? = some (.loop (m + 1)))
    (h : verifyDepthRegionAt ops fuel lo hi depth breaks nest = .ok (e, bs)) :
    ∃ fuel' depth' e₁ bs₁,
      verifyDepthRegionAt ops fuel' (lo + 1) m depth [] (nest + 1) = .ok (e₁, bs₁) ∧
      verifyDepthRegionAt ops fuel' (m + 1) hi depth' breaks nest = .ok (e, bs) := by
  obtain ⟨fuel, rfl, hn, hl⟩ := verifyDepthRegionAt_succ hlt hop h
  rw [verifyDepthRegionAt, if_neg hn, if_neg hl, hop] at h
  obtain ⟨⟨e₁, bs₁⟩, hbody, h⟩ := bind_eq_ok h
  exact ⟨fuel, _, e₁, bs₁, hbody, h⟩

/-- Every value, when some path falls through. -/
def falls {σ : Type} (e : Option Int) : Set σ := {_v | e.isSome}

variable {σ : Type} {eff : Op → σ → σ → Prop}

theorem any_triple {P : Set σ} : OpTriple eff (fun _ _ => True) op P Set.univ :=
  fun _ _ => ⟨trivial, fun _ _ => trivial⟩

/-- **The depth pass knows which regions control falls out of.** -/
theorem Region.falls (hr : Region Eq ops x lo hi)
    (h : verifyDepthRegionAt ops fuel lo hi depth breaks nest = .ok (e, bs)) :
    RegionTriple ops eff (fun _ _ _ => True) x lo hi Set.univ (falls e) Set.univ := by
  induction hr generalizing fuel depth breaks nest e bs with
  | @nil x lo =>
    cases fuel with
    | zero => cases h
    | succ fuel =>
      rw [verifyDepthRegionAt] at h
      split at h
      · cases h
      rw [if_pos (Nat.min_le_left _ _)] at h
      cases h
      exact .nil fun _ _ => rfl
  | @leaf x lo hi op hop hd rest ih =>
    rcases verifyDepthRegionAt_leaf rest.le hop hd h with hn | ⟨fuel', depth', hrest⟩
    · exact .halt hop hn any_triple
    · exact .leaf hop (fun _ => next_leaf hd) any_triple (ih hrest)
  | «break» hop rest ih => exact .break hop any_triple
  | breakIf hop rest ih =>
    obtain ⟨fuel', depth', breaks', hrest⟩ := verifyDepthRegionAt_breakIf rest.le hop h
    exact .breakIf hop any_triple (Set.Subset.refl _) (ih hrest)
  | @ifThen x lo m hi hif body hend rest ihb ihr =>
    have hlt : lo < hi := by have := body.le; have := rest.le; omega
    obtain ⟨fuel', depth', e₁, bs₁, depth'', hbody, hrest⟩ :=
      verifyDepthRegionAt_ifThen hlt hif (body.elseBefore_none hif) h
    exact .ifThen hif any_triple (ihb hbody) hend any_triple (ihr hrest)
  | @ifElse x lo m t m' hi hif thenBody helse hown elseBody hend rest iht ihe ihr =>
    obtain rfl : t = m' := hown
    have hlt : lo < hi := by
      have := thenBody.le; have := elseBody.le; have := rest.le
      omega
    obtain ⟨fuel', depth', e₁, bs₁, e₂, bs₂, hthen, helse', hrest⟩ :=
      verifyDepthRegionAt_ifElse hlt hif (elseBefore_some helse) h
    rcases hrest with ⟨rfl, rfl⟩ | ⟨depth'', hrest⟩
    · have hskip : OpTriple eff (fun _ _ => True) (.elseOp t) (Keleusma.falls none) ∅ := by
        rintro _ ⟨⟩
      have hjoin : OpTriple eff (fun _ _ => True) .endIf (∅ ∪ Keleusma.falls none) ∅ := by
        rintro v (hv | hv) <;> cases hv
      exact .ifElse hif any_triple (iht hthen) helse hskip (ihe helse') hend hjoin .empty
    · exact .ifElse hif any_triple (iht hthen) helse any_triple (ihe helse') hend any_triple
        (ihr hrest)
  | @loop x lo m hi hloop body hend rest ihb ihr =>
    have hlt : lo < hi := by have := body.le; have := rest.le; omega
    obtain ⟨fuel', depth', e₁, bs₁, hbody, hrest⟩ := verifyDepthRegionAt_loop hlt hloop h
    exact .loop hloop any_triple (ihb hbody) hend any_triple (ihr hrest)

end Depth

/-! ## Accepted chunks -/

theorem typedCheckChunks_ok {md : Module} {chunks : List Chunk} {start i : ℕ} {c : Chunk}
    (h : typedCheckChunks md start chunks = .ok ()) (hc : chunks[i]? = some c) :
    checkChunkSeeded (md.typedCtx (start + i) c) = .ok () := by
  induction chunks generalizing start i with
  | nil => cases hc
  | cons c' chunks ih =>
    obtain ⟨_, hchunk, hrest⟩ := bind_eq_ok h
    cases i with
    | zero =>
      cases hc
      exact hchunk
    | succ i =>
      have := ih hrest hc
      rwa [Nat.add_assoc, Nat.add_comm 1 i] at this

/-- The typed pass accepts every chunk of an accepted module. -/
theorem verify_typed {md : Module} (hv : verify md = .ok ()) {i : ℕ} {c : Chunk}
    (hc : md.chunks[i]? = some c) : checkChunkSeeded (md.typedCtx i c) = .ok () := by
  obtain ⟨_, -, h⟩ := bind_eq_ok (verify_accepted hv).2
  simpa using typedCheckChunks_ok h hc

theorem ChunkAccepted.wellNested {md : Module} {c : Chunk} (h : ChunkAccepted md c)
    (hm : ElseMatched c.ops) : WellNested c.ops :=
  (checkNesting_region h.nesting).matched hm

/-- **In an accepted chunk control reaches only instructions whose operands are there.** -/
theorem accepted_heights {md : Module} (hv : verify md = .ok ()) {i : ℕ} {c : Chunk}
    (hc : md.chunks[i]? = some c) (hm : ElseMatched c.ops) {ip h : ℕ}
    (hr : FlowReaches c.ops heightEff 0 ip h) : ∃ op, c.ops[ip]? = some op ∧ opRequires op ≤ h := by
  have hacc := verify_chunkAccepted hv (List.mem_of_getElem? hc)
  have hnested := hacc.wellNested hm
  obtain ⟨⟨e, bs⟩, hwalk, -⟩ := bind_eq_ok (verify_typed hv hc)
  obtain ⟨_, -, hheights⟩ := Region.heights (show Region Eq (md.typedCtx i c).chunk.ops _ _ _ from hnested) hwalk
  obtain ⟨⟨e', bs'⟩, hdepth, hend⟩ := bind_eq_ok hacc.depth
  have hfalls := (Region.falls hnested hdepth :
    RegionTriple c.ops heightEff _ none 0 c.ops.length Set.univ (falls e') Set.univ)
  rcases hheights.reaches rfl hr with hgood | ⟨hlen, -⟩
  · exact hgood
  · rcases hfalls.reaches trivial hr with ⟨op, hop, -⟩ | ⟨-, hsome⟩
    · have := (List.getElem?_eq_some_iff.mp hop).1
      have : ip = c.ops.length := hlen
      omega
    · cases e' with
      | none => cases hsome
      | some depth => cases hend

end Keleusma
