import Keleusma.Control.Blocks
import Keleusma.Logic.SafeUntil

/-!
# Rules for regions

Control flow along the edges of a chunk carries a value that every instruction transforms, such
as the height of the operand stack. `RegionTriple` speaks of one region of a tree of blocks: from
values `P` at its first position every instruction is executed on a good value, until control
falls out of the region with a value in `Q`, or leaves through a break with a value in `B`. There
is one rule for each kind of block, so that the triples of a chunk follow its structure.
-/

namespace Keleusma

variable {σ : Type}

/-- Control flow with a value: an instruction names the next position and transforms the value. -/
def Flow (ops : List Op) (eff : Op → σ → σ → Prop) (s s' : ℕ × σ) : Prop :=
  ∃ op, ops[s.1]? = some op ∧ s'.1 ∈ op.next s.1 ∧ eff op s.2 s'.2

/-- There is an instruction, and it may be executed at its position on the value. -/
def GoodAt (ops : List Op) (good : ℕ → Op → σ → Prop) (s : ℕ × σ) : Prop :=
  ∃ op, ops[s.1]? = some op ∧ good s.1 op s.2

/-- The instruction is executed on good values and takes `P` to `Q`. -/
def OpTriple (eff : Op → σ → σ → Prop) (good : Op → σ → Prop) (op : Op) (P Q : Set σ) : Prop :=
  ∀ v ∈ P, good op v ∧ ∀ v', eff op v v' → v' ∈ Q

/-- The values at a position. -/
def ValuesAt (ip : ℕ) (P : Set σ) : Set (ℕ × σ) := {s | s.1 = ip ∧ s.2 ∈ P}

/-- The values at the exit of the enclosing loop. -/
def ValuesAtExit (x : Option ℕ) (B : Set σ) : Set (ℕ × σ) := {s | x = some s.1 ∧ s.2 ∈ B}

/-- From `P` at the start of a region, only good values are met until control is at its end with a
value in `Q`, or at the exit of the loop around with a value in `B`. -/
def RegionTriple (ops : List Op) (eff : Op → σ → σ → Prop) (good : ℕ → Op → σ → Prop) (x : Option ℕ)
    (lo hi : ℕ) (P Q B : Set σ) : Prop :=
  SafeUntil (Flow ops eff) (GoodAt ops good) (ValuesAt lo P) (ValuesAt hi Q ∪ ValuesAtExit x B)

variable {ops : List Op} {eff : Op → σ → σ → Prop} {good : ℕ → Op → σ → Prop} {x : Option ℕ}
  {lo m m' hi : ℕ} {op : Op} {P P' Q Q' Q₁ Q₁' Q₂ B B' H J : Set σ}

theorem OpTriple.mono {good : Op → σ → Prop} (h : OpTriple eff good op P Q) (hP : P' ⊆ P)
    (hQ : Q ⊆ Q') : OpTriple eff good op P' Q' :=
  fun v hv => ⟨(h v (hP hv)).1, fun v' hvv => hQ ((h v (hP hv)).2 v' hvv)⟩

theorem ValuesAt.mono {ip : ℕ} (h : P ⊆ Q) : ValuesAt ip P ⊆ ValuesAt ip Q :=
  fun _ hs => ⟨hs.1, h hs.2⟩

theorem ValuesAtExit.mono (h : B ⊆ B') : ValuesAtExit x B ⊆ ValuesAtExit x B' :=
  fun _ hs => ⟨hs.1, h hs.2⟩

namespace RegionTriple

theorem mono (h : RegionTriple ops eff good x lo hi P Q B) (hP : P' ⊆ P) (hQ : Q ⊆ Q')
    (hB : B ⊆ B') : RegionTriple ops eff good x lo hi P' Q' B' :=
  SafeUntil.mono h (ValuesAt.mono hP) (Set.union_subset_union (ValuesAt.mono hQ) (ValuesAtExit.mono hB))

/-- One instruction, wherever it goes. -/
theorem instr {E : Set (ℕ × σ)} (hop : ops[lo]? = some op) (ht : OpTriple eff (good lo) op P Q)
    (hE : ∀ ip' ∈ op.next lo, ∀ v ∈ Q, (ip', v) ∈ E) :
    SafeUntil (Flow ops eff) (GoodAt ops good) (ValuesAt lo P) E := by
  refine .single ?_ ?_
  · rintro ⟨ip, v⟩ ⟨rfl, hv⟩
    exact ⟨op, hop, (ht v hv).1⟩
  · rintro ⟨ip, v⟩ ⟨rfl, hv⟩ ⟨ip', v'⟩ ⟨op', hop', hn, heff⟩
    cases hop.symm.trans hop'
    exact hE ip' hn v' ((ht v hv).2 v' heff)

theorem nil (h : P ⊆ Q) : RegionTriple ops eff good x lo lo P Q B :=
  .of_subset fun _ hs => .inl ⟨hs.1, h hs.2⟩

/-- Nothing is executed from no value. -/
theorem empty : RegionTriple ops eff good x lo hi ∅ Q B :=
  .of_subset fun _ hs => hs.2.elim

/-- An instruction that goes on to the next one. -/
theorem leaf (hop : ops[lo]? = some op) (hd : ∀ ip' ∈ op.next lo, ip' = lo + 1)
    (ht : OpTriple eff (good lo) op P P') (rest : RegionTriple ops eff good x (lo + 1) hi P' Q B) :
    RegionTriple ops eff good x lo hi P Q B :=
  SafeUntil.trans (instr (E := ValuesAt (lo + 1) P') hop ht fun _ hn _ hv => ⟨hd _ hn, hv⟩) rest

/-- An instruction that control does not leave. -/
theorem halt (hop : ops[lo]? = some op) (hn : op.next lo = []) (ht : OpTriple eff (good lo) op P P') :
    RegionTriple ops eff good x lo hi P Q B :=
  instr hop ht fun _ h => absurd (hn ▸ h) List.not_mem_nil

theorem «break» {k : ℕ} (hop : ops[lo]? = some (.break k))
    (ht : OpTriple eff (good lo) (.break k) P B) : RegionTriple ops eff good (some k) lo hi P Q B :=
  instr hop ht fun _ hn _ hv => .inr ⟨congrArg some (List.mem_singleton.mp hn).symm, hv⟩

theorem breakIf {k : ℕ} (hop : ops[lo]? = some (.breakIf k))
    (ht : OpTriple eff (good lo) (.breakIf k) P P') (hB : P' ⊆ B)
    (rest : RegionTriple ops eff good (some k) (lo + 1) hi P' Q B) :
    RegionTriple ops eff good (some k) lo hi P Q B := by
  refine SafeUntil.trans_union (instr hop ht fun ip' hn v hv => ?_) rest
  rcases List.mem_cons.mp hn with rfl | hn
  · exact .inl ⟨rfl, hv⟩
  · exact .inr (.inr ⟨congrArg some (List.mem_singleton.mp hn).symm, hB hv⟩)

/-- A piece in front of a region. -/
theorem seq (h : RegionTriple ops eff good x lo m P J B)
    (rest : RegionTriple ops eff good x m hi J Q B) : RegionTriple ops eff good x lo hi P Q B :=
  SafeUntil.trans_union (SafeUntil.mono h (Set.Subset.refl _)
    (Set.union_subset_union_right _ Set.subset_union_right)) rest

/-- A branch without an alternative. -/
theorem ifThen (hif : ops[lo]? = some (.ifOp m)) (ht : OpTriple eff (good lo) (.ifOp m) P P')
    (body : RegionTriple ops eff good x (lo + 1) m P' Q₁ B) (hend : ops[m]? = some .endIf)
    (hj : OpTriple eff (good m) .endIf (Q₁ ∪ P') J)
    (rest : RegionTriple ops eff good x (m + 1) hi J Q B) :
    RegionTriple ops eff good x lo hi P Q B := by
  have hendIf : ∀ {R}, R ⊆ Q₁ ∪ P' → RegionTriple ops eff good x m hi R Q B := fun hR =>
    leaf hend (fun _ hn => List.mem_singleton.mp hn) (hj.mono hR (Set.Subset.refl _)) rest
  have hbody := body.seq (hendIf Set.subset_union_left)
  have hskip := hendIf Set.subset_union_right
  refine (instr hif ht fun ip' hn v hv => ?_).trans (SafeUntil.union hbody hskip)
  rcases List.mem_cons.mp hn with rfl | hn
  · exact .inl ⟨rfl, hv⟩
  · exact .inr ⟨List.mem_singleton.mp hn, hv⟩

/-- A branch with an alternative. -/
theorem ifElse (hif : ops[lo]? = some (.ifOp (m + 1)))
    (ht : OpTriple eff (good lo) (.ifOp (m + 1)) P P')
    (thenBody : RegionTriple ops eff good x (lo + 1) m P' Q₁ B)
    (helse : ops[m]? = some (.elseOp m')) (hskip : OpTriple eff (good m) (.elseOp m') Q₁ Q₁')
    (elseBody : RegionTriple ops eff good x (m + 1) m' P' Q₂ B) (hend : ops[m']? = some .endIf)
    (hj : OpTriple eff (good m') .endIf (Q₁' ∪ Q₂) J)
    (rest : RegionTriple ops eff good x (m' + 1) hi J Q B) :
    RegionTriple ops eff good x lo hi P Q B := by
  have hendIf : ∀ {R}, R ⊆ Q₁' ∪ Q₂ → RegionTriple ops eff good x m' hi R Q B := fun hR =>
    leaf hend (fun _ hn => List.mem_singleton.mp hn) (hj.mono hR (Set.Subset.refl _)) rest
  have hthen : RegionTriple ops eff good x (lo + 1) hi P' Q B :=
    thenBody.seq ((instr (E := ValuesAt m' Q₁') helse hskip fun _ hn _ hv =>
      ⟨List.mem_singleton.mp hn, hv⟩).trans (hendIf Set.subset_union_left))
  have helse := elseBody.seq (hendIf Set.subset_union_right)
  refine (instr hif ht fun ip' hn v hv => ?_).trans (SafeUntil.union hthen helse)
  rcases List.mem_cons.mp hn with rfl | hn
  · exact .inl ⟨rfl, hv⟩
  · exact .inr ⟨List.mem_singleton.mp hn, hv⟩

/-- **A loop.** The values `H` at the head of the body are an invariant, and the breaks leave with
values in `J`. -/
theorem loop (hloop : ops[lo]? = some (.loop (m + 1)))
    (ht : OpTriple eff (good lo) (.loop (m + 1)) P H)
    (body : RegionTriple ops eff good (some (m + 1)) (lo + 1) m H Q₁ J)
    (hend : ops[m]? = some (.endLoop (lo + 1)))
    (hback : OpTriple eff (good m) (.endLoop (lo + 1)) Q₁ H)
    (rest : RegionTriple ops eff good x (m + 1) hi J Q B) :
    RegionTriple ops eff good x lo hi P Q B := by
  have hiter : SafeUntil (Flow ops eff) (GoodAt ops good) (ValuesAt (lo + 1) H)
      (ValuesAtExit (some (m + 1)) J) := by
    refine SafeUntil.loop body ?_ ?_
    · rintro ⟨ip, v⟩ ⟨rfl, hv⟩
      exact ⟨_, hend, (hback v hv).1⟩
    · rintro ⟨ip, v⟩ ⟨rfl, hv⟩ ⟨ip', v'⟩ ⟨op', hop', hn, heff⟩
      cases hend.symm.trans hop'
      exact .inl ⟨List.mem_singleton.mp hn, (hback v hv).2 v' heff⟩
  have hexit : ValuesAtExit (some (m + 1)) J ⊆ ValuesAt (m + 1) J := fun _ hs =>
    ⟨(Option.some.inj hs.1).symm, hs.2⟩
  exact (instr (E := ValuesAt (lo + 1) H) hloop ht fun _ hn _ hv =>
    ⟨List.mem_singleton.mp hn, hv⟩).trans ((hiter.mono (Set.Subset.refl _) hexit).trans rest)

end RegionTriple

/-- The states that control can reach from the entry of a chunk with a value. -/
def FlowReaches (ops : List Op) (eff : Op → σ → σ → Prop) (v₀ : σ) (ip : ℕ) (v : σ) : Prop :=
  Relation.ReflTransGen (Flow ops eff) (0, v₀) (ip, v)

theorem FlowReaches.next {v₀ v v' : σ} {ip ip' : ℕ} (h : FlowReaches ops eff v₀ ip v)
    (hop : ops[ip]? = some op) (hn : ip' ∈ op.next ip) (heff : eff op v v') :
    FlowReaches ops eff v₀ ip' v' :=
  h.tail ⟨op, hop, hn, heff⟩

/-- **A triple about a whole chunk speaks of all that control can reach.** -/
theorem RegionTriple.reaches (h : RegionTriple ops eff good none 0 ops.length P Q B) {v₀ v : σ}
    {ip : ℕ} (hv₀ : v₀ ∈ P) (hr : FlowReaches ops eff v₀ ip v) :
    GoodAt ops good (ip, v) ∨ ip = ops.length ∧ v ∈ Q := by
  have hexit : ∀ s ∈ ValuesAt ops.length Q ∪ ValuesAtExit none B, s.1 = ops.length ∧ s.2 ∈ Q := by
    rintro s (hs | hs)
    · exact hs
    · cases hs.1
  refine (SafeUntil.good_or_exit h (fun s hs s' hss => ?_) ⟨rfl, hv₀⟩ hr).imp_right (hexit _)
  obtain ⟨op, hop, -⟩ := hss
  have := (List.getElem?_eq_some_iff.mp hop).1
  rw [(hexit s hs).1] at this
  omega

end Keleusma
