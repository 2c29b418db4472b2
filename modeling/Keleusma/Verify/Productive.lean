import Keleusma.Logic.Outcomes
import Keleusma.Verify.WorstMemorySound
import Keleusma.Verify.Yielding

/-!
# Productive iterations

The third pass walks over what is between `Stream` and `Reset`. The depth pass goes over more than
that, but up to the `Reset` it does the same (`Region.depth_front`), so that every path to the
`Reset` of an accepted chunk yields (`ChunkAccepted.productive`). A `Return` on the way ends the
chunk, and nothing is asked of it.
-/

namespace Keleusma

open Outcomes (bind_eq_ok_iff)

variable {ops : List Op} {always : List ℕ} {x : Option ℕ} {lo hi hi' fuel nest : ℕ} {depth : Int}
  {breaks : List Int} {r : Option Int × List Int}

/-- The depth pass over more than a region succeeds on the region. -/
theorem Region.depth_front (hr : Region Eq ops x lo hi) (hle : hi ≤ hi') (hlen : hi' ≤ ops.length)
    (h : verifyDepthRegionAt ops fuel lo hi' depth breaks nest = .ok r) :
    ∃ r', verifyDepthRegionAt ops fuel lo hi depth breaks nest = .ok r' := by
  have hnest := verifyDepthRegionAt_nest h
  induction hr generalizing fuel depth breaks with
  | @nil x lo =>
    cases fuel with
    | zero => cases h
    | succ fuel =>
      rw [verifyDepthRegionAt, if_neg hnest, if_pos (Nat.min_le_left _ _)]
      exact ⟨_, rfl⟩
  | @leaf x lo hi op hop hd rest ih =>
    have hlt : lo < hi := rest.le
    obtain ⟨fuel, rfl, -, hin⟩ := verifyDepthRegionAt_succ (by omega) hop h
    rw [verifyDepthRegionAt, if_neg hnest, if_neg hin, hop] at h
    rw [verifyDepthRegionAt, if_neg hnest, if_neg (by omega), hop]
    cases op with
    | ifOp | elseOp | endIf | loop | endLoop | «break» | breakIf => cases hd
    | trap | «return» | reset => exact ⟨r, h⟩
    | _ =>
      obtain ⟨_, hreq, h⟩ := bind_eq_ok h
      obtain ⟨r', hr'⟩ := ih hle h
      exact ⟨r', bind_eq_ok_iff.mpr ⟨_, hreq, hr'⟩⟩
  | @«break» k lo hi hop rest ih =>
    have hlt : lo < hi := rest.le
    obtain ⟨fuel, rfl, -, hin⟩ := verifyDepthRegionAt_succ (by omega) hop h
    rw [verifyDepthRegionAt, if_neg hnest, if_neg (by omega), hop]
    exact ⟨_, rfl⟩
  | @breakIf k lo hi hop rest ih =>
    have hlt : lo < hi := rest.le
    obtain ⟨fuel, rfl, -, hin⟩ := verifyDepthRegionAt_succ (by omega) hop h
    rw [verifyDepthRegionAt, if_neg hnest, if_neg hin, hop] at h
    rw [verifyDepthRegionAt, if_neg hnest, if_neg (by omega), hop]
    obtain ⟨_, hreq, h⟩ := bind_eq_ok h
    obtain ⟨r', hr'⟩ := ih hle h
    exact ⟨r', bind_eq_ok_iff.mpr ⟨_, hreq, hr'⟩⟩
  | @ifThen x lo m hi hif body hend rest ihb ihr =>
    have hbody := body.le
    have hlt : m < hi := rest.le
    obtain ⟨fuel, rfl, -, hin⟩ := verifyDepthRegionAt_succ (by omega) hif h
    rw [verifyDepthRegionAt, if_neg hnest, if_neg hin, hif] at h
    rw [verifyDepthRegionAt, if_neg hnest, if_neg (by omega), hif]
    obtain ⟨_, hreq, h⟩ := bind_eq_ok h
    dsimp only at h ⊢
    rw [body.elseBefore_none hif] at h ⊢
    obtain ⟨e, hwalk, h⟩ := bind_eq_ok h
    obtain ⟨r', hr'⟩ := ihr hle h
    exact ⟨r', bind_eq_ok_iff.mpr ⟨_, hreq, bind_eq_ok_iff.mpr ⟨_, hwalk, hr'⟩⟩⟩
  | @ifElse x lo m t m' hi hif thenBody helse hown elseBody hend rest iht ihe ihr =>
    obtain rfl : t = m' := hown
    have hthen := thenBody.le
    have helse' := elseBody.le
    have hlt : t < hi := rest.le
    obtain ⟨fuel, rfl, -, hin⟩ := verifyDepthRegionAt_succ (by omega) hif h
    rw [verifyDepthRegionAt, if_neg hnest, if_neg hin, hif] at h
    rw [verifyDepthRegionAt, if_neg hnest, if_neg (by omega), hif]
    obtain ⟨_, hreq, h⟩ := bind_eq_ok h
    dsimp only at h ⊢
    rw [elseBefore_some helse] at h ⊢
    obtain ⟨⟨e₁, bs₁⟩, hwalk, h⟩ := bind_eq_ok h
    obtain ⟨⟨e₂, bs₂⟩, hwalk', h⟩ := bind_eq_ok h
    cases e₁ with
    | none =>
      cases e₂ with
      | none => exact ⟨_, bind_eq_ok_iff.mpr ⟨_, hreq, bind_eq_ok_iff.mpr ⟨_, hwalk,
        bind_eq_ok_iff.mpr ⟨_, hwalk', rfl⟩⟩⟩⟩
      | some b =>
        obtain ⟨r', hr'⟩ := ihr hle h
        exact ⟨r', bind_eq_ok_iff.mpr ⟨_, hreq, bind_eq_ok_iff.mpr ⟨_, hwalk,
          bind_eq_ok_iff.mpr ⟨_, hwalk', hr'⟩⟩⟩⟩
    | some a =>
      cases e₂ with
      | none =>
        obtain ⟨r', hr'⟩ := ihr hle h
        exact ⟨r', bind_eq_ok_iff.mpr ⟨_, hreq, bind_eq_ok_iff.mpr ⟨_, hwalk,
          bind_eq_ok_iff.mpr ⟨_, hwalk', hr'⟩⟩⟩⟩
      | some b =>
        obtain ⟨r', hr'⟩ := ihr hle h
        exact ⟨r', bind_eq_ok_iff.mpr ⟨_, hreq, bind_eq_ok_iff.mpr ⟨_, hwalk,
          bind_eq_ok_iff.mpr ⟨_, hwalk', hr'⟩⟩⟩⟩
  | @loop x lo m hi hloop body hend rest ihb ihr =>
    have hbody := body.le
    have hlt : m < hi := rest.le
    obtain ⟨fuel, rfl, -, hin⟩ := verifyDepthRegionAt_succ (by omega) hloop h
    rw [verifyDepthRegionAt, if_neg hnest, if_neg hin, hloop] at h
    rw [verifyDepthRegionAt, if_neg hnest, if_neg (by omega), hloop]
    obtain ⟨e, hwalk, h⟩ := bind_eq_ok h
    obtain ⟨r', hr'⟩ := ihr hle h
    exact ⟨r', bind_eq_ok_iff.mpr ⟨_, hwalk, hr'⟩⟩

/-- Every path to the `Reset` of an iteration yields. -/
def IterationYields (always : List ℕ) (c : Chunk) : Prop :=
  ∀ ip v, c.ops[ip]? = some .reset → FlowReaches c.ops (yieldEff always) false ip v → v = true

theorem findIdx?_of_unique {op : Op} {p : ℕ} (hp : ops[p]? = some op)
    (hunique : ∀ q, ops[q]? = some op → q = p) : ops.findIdx? (· == op) = some p := by
  cases h : ops.findIdx? (· == op) with
  | none => exact absurd (List.findIdx?_eq_none_iff.mp h op (List.mem_of_getElem? hp)) (by simp)
  | some q => rw [hunique q (findIdx?_getElem? h)]

/-- **In an accepted `loop fn` that is one iteration every path to the `Reset` yields.** -/
theorem ChunkAccepted.iterationYields {m : Module} {c : Chunk} (hacc : ChunkAccepted m c)
    (hm : IterationWhole c) (hs : c.blockType = .stream) :
    IterationYields (computeAlwaysYielding m) c := by
  obtain ⟨hstream, p, hp, hregion⟩ := hm hs
  have hlen := (List.getElem?_eq_some_iff.mp hp).1
  have hunique : ∀ q, c.ops[q]? = some .reset → q = p := fun q hq =>
    position_unique (hacc.markers (.inr (List.mem_of_getElem? hp))).2.2 hq hp
  -- the depth pass goes over the iteration
  obtain ⟨⟨e, ds⟩, hdepth, -⟩ := bind_eq_ok hacc.depth
  rcases verifyDepthRegionAt_leaf (by omega) hstream rfl hdepth with hnext | ⟨fuel, d, hdepth⟩
  · cases hnext
  obtain ⟨⟨e', ds'⟩, hdepth⟩ := hregion.depth_front hlen.le le_rfl hdepth
  let good : ℕ → Op → Bool → Prop := fun _ op v => op = .reset → v = true
  have hdelim : ∀ i op v, op.isDelimiter = true → good i op v := by rintro i op v hd rfl; cases hd
  have hreports := hregion.reports (h := false) hlen.le
    (show p - 1 < c.ops.length + 1 by omega) false hdepth hdelim
    (fun i hi op v hop _ _ hreset => absurd (hunique i (hreset ▸ hop)) hi.ne)
    (show ∀ p ∈ returnStatesAt _ (computeAlwaysYielding m) _ _ _ _ _, ∀ v ∈ known p.2, good p.1 _ v
      by rintro p hp v hv ⟨⟩)
  have hcheck := hacc.productive
  unfold checkProductive at hcheck
  rw [if_pos hs, findIdx?_of_unique hstream fun q hq => hacc.stream_unique hq hstream,
    findIdx?_of_unique hp hunique] at hcheck
  intro ip v hop hr
  obtain rfl := hunique ip hop
  rcases Relation.ReflTransGen.cases_head hr with heq | ⟨⟨ip', v'⟩, hstep, hr⟩
  · obtain ⟨rfl, rfl⟩ := Prod.mk.inj heq
    cases hstream.symm.trans hp
  obtain ⟨op, hop', hn, heff⟩ := hstep
  obtain rfl := Option.some.inj (hop'.symm.trans hstream)
  obtain rfl : ip' = 1 := List.mem_singleton.mp hn
  obtain rfl : v' = false := heff
  -- the machine does not go on from a `Reset` within the chunk
  have hexit {Q B : Set Bool} : ∀ s ∈ ValuesAt ip Q ∪ ValuesAtExit none B, ∀ s', ¬Flow c.ops
      (yieldEff (computeAlwaysYielding m)) s s' := by
    rintro s (⟨hs, -⟩ | ⟨hs, -⟩) s' ⟨op, hop, hn, -⟩
    · rw [hs, hp] at hop
      cases hop
      cases hn
    · cases hs
  have hbegin : (1, false).2 ∈ known false ∩ known false := ⟨by rintro ⟨⟩, by rintro ⟨⟩⟩
  rcases SafeUntil.good_or_exit hreports hexit ⟨rfl, hbegin⟩ hr with
    ⟨op, hop, hgood⟩ | hend
  · exact hgood (Option.some.inj (hop.symm.trans hp))
  · rcases hend with ⟨-, ⟨⟨b, hb, hv⟩, -⟩, -⟩ | ⟨hs, -⟩
    · cases b with
      | true => exact hv rfl
      | false =>
        have hrefused : analyzeYieldCoverage c.ops (computeAlwaysYielding m) 1 ip false =
          some false := hb
        dsimp only at hcheck
        rw [Nat.zero_add, if_pos hrefused] at hcheck
        cases hcheck
    · cases hs

end Keleusma
