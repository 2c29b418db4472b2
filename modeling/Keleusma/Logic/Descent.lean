import Mathlib.Order.Bounds.Basic
import Mathlib.Tactic.Common

/-!
# Descent to the greatest solution

At every node of a graph a value is sought that is the greatest lower bound of an input and of what
arrives over the edges. Values that descend from the inputs stay above every solution as long as no
step goes below what the step before lets through (`Descended.step`), so that where they no longer
have to descend they are the greatest solution (`Descended.isGreatest`), whatever the steps were.
-/

/-- A graph with an input at every node, and what leaves a node as a function of its value. -/
structure FlowGraph (N L : Type*) [Preorder L] where
  Edge : N → N → Prop
  input : N → L
  transfer : N → L → L
  mono : ∀ p, Monotone (transfer p)

namespace FlowGraph

variable {N L : Type*} [Preorder L] (G : FlowGraph N L)

/-- The input of a node and what arrives there. -/
def arriving (X : N → L) (v : N) : Set L :=
  insert (G.input v) {a | ∃ p, G.Edge p v ∧ a = G.transfer p (X p)}

/-- Every value is the meet of what arrives. -/
def Solves (X : N → L) : Prop := ∀ v, IsGLB (G.arriving X v) (X v)

/-- No value is above anything that arrives. -/
def Closed (X : N → L) : Prop := ∀ v, X v ∈ lowerBounds (G.arriving X v)

/-- Values on their way down: above all closed ones, and nowhere lower than the meet of what
arrives. -/
structure Descended (X : N → L) : Prop where
  above : ∀ Y, G.Closed Y → Y ≤ X
  sourced : ∀ v, lowerBounds (G.arriving X v) ⊆ Set.Iic (X v)

variable {G} {X Y : N → L}

theorem mem_lowerBounds_arriving {v : N} {a : L} : a ∈ lowerBounds (G.arriving X v) ↔
    a ≤ G.input v ∧ ∀ p, G.Edge p v → a ≤ G.transfer p (X p) := by
  rw [arriving, lowerBounds_insert, Set.mem_inter_iff, Set.mem_Iic]
  refine and_congr_right fun _ => ⟨fun h p hp => h ⟨p, hp, rfl⟩, ?_⟩
  rintro h _ ⟨p, hp, rfl⟩
  exact h p hp

theorem Solves.closed (h : G.Solves X) : G.Closed X := fun v => (h v).1

/-- The inputs have not descended yet. -/
theorem Descended.start : G.Descended G.input where
  above _ hY v := (mem_lowerBounds_arriving.mp (hY v)).1
  sourced _ _ ha := (mem_lowerBounds_arriving.mp ha).1

/-- **A step of the descent** lets through what is below the value and below all that arrives. -/
theorem Descended.step (h : G.Descended X) (hle : Y ≤ X)
    (hthrough : ∀ v a, a ≤ X v → (∀ p, G.Edge p v → a ≤ G.transfer p (X p)) → a ≤ Y v) :
    G.Descended Y where
  above Z hZ v := by
    have habove := h.above Z hZ
    refine hthrough v _ (habove v) fun p hp => ?_
    exact ((mem_lowerBounds_arriving.mp (hZ v)).2 p hp).trans (G.mono p (habove p))
  sourced v a ha := by
    obtain ⟨hinput, harrives⟩ := mem_lowerBounds_arriving.mp ha
    have hX (p : N) (hp : G.Edge p v) : a ≤ G.transfer p (X p) :=
      (harrives p hp).trans (G.mono p (hle p))
    exact hthrough v a (h.sourced v (mem_lowerBounds_arriving.mpr ⟨hinput, hX⟩)) hX

/-- **Values that have descended and are closed** are the greatest solution. -/
theorem Descended.isGreatest (h : G.Descended X) (hX : G.Closed X) :
    IsGreatest {Y | G.Solves Y} X :=
  ⟨fun v => ⟨hX v, h.sourced v⟩, fun _ hY => h.above _ hY.closed⟩

/-- Where a set of nodes has no edge into it from outside and no input below a greatest value, the
values of this set are greatest. -/
theorem Descended.top_le (h : G.Descended X) (hX : G.Closed X) {S : Set N} {top : L}
    (htop : ∀ a, a ≤ top) (hin : ∀ v ∈ S, top ≤ G.input v)
    (hS : ∀ p v, v ∈ S → G.Edge p v → p ∈ S) (htransfer : ∀ p, top ≤ G.transfer p top)
    {v : N} (hv : v ∈ S) : top ≤ X v := by
  classical
  -- The values are raised to the top throughout the set, and stay closed.
  have hraised : G.Closed fun u => if u ∈ S then top else X u := by
    intro u
    rw [mem_lowerBounds_arriving]
    dsimp only
    by_cases hu : u ∈ S
    · simp only [if_pos hu]
      refine ⟨hin u hu, fun p hp => ?_⟩
      rw [if_pos (hS p u hu hp)]
      exact htransfer p
    · simp only [if_neg hu]
      obtain ⟨hinput, harrives⟩ := mem_lowerBounds_arriving.mp (hX u)
      refine ⟨hinput, fun p hp => (harrives p hp).trans (G.mono p ?_)⟩
      split_ifs
      · exact htop _
      · exact le_rfl
  have hle := h.above _ hraised v
  rwa [if_pos hv] at hle

end FlowGraph
