import Mathlib.Data.List.Chain
import Mathlib.Data.List.Perm.Subperm
import Mathlib.Logic.Relation
import Mathlib.Order.Bounds.Basic
import Mathlib.Tactic.Common

/-!
# Post-orders

A list is a post-order of a relation when the successors of each of its elements come before it.
A depth-first search makes one: it keeps the path to the element it visits, goes on to a successor
(`Searched.enter`), and appends an element once all its successors have been (`Searched.leave`).
A post-order without duplicates has no cycle (`PostOrder.acyclic`), and the longest chain from each
of its elements is found in one pass (`Height.of_successors`).
-/

variable {α : Type*} {r : α → α → Prop}

/-- The successors of every element of the list lie in front of it. -/
def PostOrder (r : α → α → Prop) (order : List α) : Prop :=
  ∀ before a after, order = before ++ a :: after → ∀ b, r a b → b ∈ before

namespace PostOrder

theorem nil : PostOrder r [] := fun before a after h => by
  cases before <;> cases h

/-- An element all of whose successors are there may follow. -/
theorem snoc {order : List α} {a : α} (h : PostOrder r order) (ha : ∀ b, r a b → b ∈ order) :
    PostOrder r (order ++ [a]) := by
  intro before c after heq b hb
  rcases List.eq_nil_or_concat after with rfl | ⟨after, last, rfl⟩
  · obtain ⟨rfl, hc⟩ := List.append_inj' heq rfl
    cases hc
    exact ha b hb
  · rw [List.concat_eq_append, ← List.cons_append, ← List.append_assoc] at heq
    exact h before c after (List.append_inj' heq rfl).1 b hb

theorem of_append {order more : List α} (h : PostOrder r (order ++ more)) : PostOrder r order :=
  fun before a after heq => h before a (after ++ more) (by rw [heq, List.append_assoc]; rfl)

/-- What is reached from an element lies in front of it. -/
theorem transGen_mem {order before after : List α} {a b : α} (h : PostOrder r order)
    (heq : order = before ++ a :: after) (hab : Relation.TransGen r a b) : b ∈ before := by
  induction hab using Relation.TransGen.head_induction_on generalizing before after with
  | single hab => exact h _ _ _ heq _ hab
  | head hac _ ih =>
    obtain ⟨front, back, rfl⟩ := List.append_of_mem (h _ _ _ heq _ hac)
    rw [List.append_assoc, List.cons_append] at heq
    exact List.mem_append_left _ (ih heq)

/-- **A post-order without duplicates has no cycle.** -/
theorem acyclic {order : List α} (h : PostOrder r order) (hnodup : order.Nodup) {a : α}
    (ha : a ∈ order) : ¬Relation.TransGen r a a := by
  intro hcycle
  obtain ⟨before, after, rfl⟩ := List.append_of_mem ha
  have hmem : a ∈ before := h.transGen_mem rfl hcycle
  exact (List.nodup_append.mp hnodup).2.2 a hmem a (List.mem_cons_self ..) rfl

end PostOrder

/-! ## The search -/

/-- What a depth-first search has found: a post-order, and apart from it the path on which it
is. -/
structure Searched (r : α → α → Prop) (path order : List α) : Prop where
  post : PostOrder r order
  nodup : order.Nodup
  pathNodup : path.Nodup
  apart : ∀ a ∈ path, a ∉ order

namespace Searched

variable {path order : List α} {a : α}

theorem start : Searched r [] [] := ⟨.nil, .nil, .nil, List.forall_mem_nil _⟩

/-- The search goes on to a new element. -/
theorem enter (h : Searched r path order) (hpath : a ∉ path) (horder : a ∉ order) :
    Searched r (a :: path) order :=
  ⟨h.post, h.nodup, List.nodup_cons.mpr ⟨hpath, h.pathNodup⟩,
    List.forall_mem_cons.mpr ⟨horder, h.apart⟩⟩

/-- The search leaves an element behind when it has been to all its successors. -/
theorem leave (h : Searched r (a :: path) order) (ha : ∀ b, r a b → b ∈ order) :
    Searched r path (order ++ [a]) := by
  obtain ⟨hnotin, hpath⟩ := List.nodup_cons.mp h.pathNodup
  have hnew : a ∉ order := h.apart a (List.mem_cons_self ..)
  refine ⟨h.post.snoc ha, List.nodup_append.mpr ⟨h.nodup, List.pairwise_singleton _ a, ?_⟩,
    hpath, ?_⟩
  · rintro b hb c hc rfl
    rw [List.mem_singleton.mp hc] at hb
    exact hnew hb
  · intro b hb hmem
    rcases List.mem_append.mp hmem with hmem | hmem
    · exact h.apart b (List.mem_cons_of_mem _ hb) hmem
    · rw [List.mem_singleton.mp hmem] at hb
      exact hnotin hb

end Searched

/-! ## Chains -/

/-- A chain without a cycle repeats nothing. -/
theorem nodup_of_isChain {l : List α} (hacyclic : ∀ a, ¬Relation.TransGen r a a)
    (h : l.IsChain r) : l.Nodup := by
  have hpairwise : l.Pairwise (Relation.TransGen r) :=
    (h.imp fun _ _ => Relation.TransGen.single).pairwise
  refine hpairwise.imp ?_
  rintro a _ hab rfl
  exact hacyclic a hab

/-- An element that descends only finitely far lies on no cycle. -/
theorem not_cycle_of_acc {a : α} (h : Acc r a) : ¬Relation.TransGen r a a := by
  intro hcycle
  have hirrefl : ∀ b, Acc (Relation.TransGen r) b → ¬Relation.TransGen r b b := by
    intro b hb
    induction hb with
    | intro b _ ih => exact fun hself => ih b hself hself
  exact hirrefl a h.transGen hcycle

/-- **Where every element of a list has a successor in the list there is a cycle.** -/
theorem exists_cycle {l : List α} (hne : l ≠ []) (h : ∀ a ∈ l, ∃ b ∈ l, r a b) :
    ∃ a ∈ l, Relation.TransGen r a a := by
  by_contra hno
  -- no cycle within the list, but chains of every length
  have hacyclic : ∀ a, ¬Relation.TransGen (fun a b => a ∈ l ∧ b ∈ l ∧ r a b) a a := by
    intro a hcycle
    have hmem : a ∈ l := by
      obtain ⟨_, hab, -⟩ := Relation.TransGen.head'_iff.mp hcycle
      exact hab.1
    exact hno ⟨a, hmem, Relation.TransGen.mono (fun _ _ hab => hab.2.2) _ _ hcycle⟩
  have hchains (n : ℕ) : ∀ a ∈ l, ∃ c, (a :: c).IsChain (fun a b => a ∈ l ∧ b ∈ l ∧ r a b) ∧
      (a :: c) ⊆ l ∧ c.length = n := by
    induction n with
    | zero =>
      intro a ha
      exact ⟨[], List.isChain_singleton a, List.cons_subset.mpr ⟨ha, List.nil_subset l⟩, rfl⟩
    | succ n ih =>
      intro a ha
      obtain ⟨b, hb, hab⟩ := h a ha
      obtain ⟨c, hchain, hsub, hlen⟩ := ih b hb
      exact ⟨b :: c, List.isChain_cons_cons.mpr ⟨⟨ha, hb, hab⟩, hchain⟩,
        List.cons_subset.mpr ⟨ha, hsub⟩, congrArg Nat.succ hlen⟩
  obtain ⟨a, ha⟩ := List.exists_mem_of_ne_nil l hne
  obtain ⟨c, hchain, hsub, hlen⟩ := hchains l.length a ha
  have hle := (List.subperm_of_subset (nodup_of_isChain hacyclic hchain) hsub).length_le
  rw [List.length_cons, hlen] at hle
  omega

/-- The longest chains from an element have the given number of elements. -/
structure Height (r : α → α → Prop) (a : α) (d : ℕ) : Prop where
  attained : ∃ l, (a :: l).IsChain r ∧ l.length + 1 = d
  bound : ∀ l, (a :: l).IsChain r → l.length + 1 ≤ d

namespace Height

variable {a : α} {d : ℕ}

/-- **The height of an element** is one more than the greatest height of its successors. -/
theorem of_successors {h : α → ℕ} (hs : ∀ b, r a b → Height r b (h b))
    (hd : IsGreatest (insert 1 {k | ∃ b, r a b ∧ k = h b + 1}) d) : Height r a d where
  attained := by
    rcases hd.1 with rfl | ⟨b, hb, rfl⟩
    · exact ⟨[], List.isChain_singleton a, rfl⟩
    · obtain ⟨l, hl, hlen⟩ := (hs b hb).attained
      exact ⟨b :: l, List.isChain_cons_cons.mpr ⟨hb, hl⟩, by rw [List.length_cons, hlen]⟩
  bound l hl := by
    cases l with
    | nil => exact hd.2 (Set.mem_insert _ _)
    | cons b l =>
      obtain ⟨hb, hl⟩ := List.isChain_cons_cons.mp hl
      have hlen : l.length + 1 ≤ h b := (hs b hb).bound l hl
      calc (b :: l).length + 1 ≤ h b + 1 := Nat.succ_le_succ hlen
        _ ≤ d := hd.2 (Set.mem_insert_of_mem _ ⟨b, hb, rfl⟩)

end Height
