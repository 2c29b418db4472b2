import Mathlib.Algebra.BigOperators.Group.List.Basic
import Mathlib.Algebra.Ring.Nat
import Mathlib.Data.List.Basic
import Mathlib.Tactic.Common

/-!
# Breadth-first numbering of a forest

The nodes of a forest in breadth-first order, and where the children of a node stand in it. The
children of a node occupy a contiguous range (`order_firstChild`) that lies strictly after the node
(`lt_firstChild`) and inside the order (`firstChild_add_le`); the ranges of successive nodes follow
one another.
-/

namespace BreadthFirst

/-- A type of trees: the children of a node, and a size that children have less of together. -/
structure Forest (α : Type*) where
  children : α → List α
  size : α → ℕ
  size_children : ∀ a, ((children a).map size).sum < size a

variable {α : Type*} (F : Forest α)

theorem Forest.size_queue (a : α) (queue : List α) :
    ((queue ++ F.children a).map F.size).sum < ((a :: queue).map F.size).sum := by
  have hchildren := F.size_children a
  rw [List.map_append, List.sum_append, List.map_cons, List.sum_cons]
  omega

/-- The nodes below a queue in breadth-first order: the head, and then the nodes below the rest of
the queue followed by the children of the head. -/
def order : List α → List α
  | [] => []
  | a :: queue => a :: order (queue ++ F.children a)
termination_by queue => (queue.map F.size).sum
decreasing_by exact F.size_queue a queue

/-- The position of the first child of the `i`-th node. -/
def firstChild (queue : List α) (i : ℕ) : ℕ :=
  queue.length + (((order F queue).take i).flatMap F.children).length

variable {F}

@[simp] theorem order_nil : order F [] = [] := by rw [order]

theorem order_cons (a : α) (queue : List α) :
    order F (a :: queue) = a :: order F (queue ++ F.children a) := by rw [order]

/-- The order is the queue followed by the children of everything in it. -/
theorem order_eq (queue : List α) :
    order F queue = queue ++ (order F queue).flatMap F.children := by
  induction queue using order.induct F with
  | case1 => simp
  | case2 a queue ih =>
    rw [order_cons, List.flatMap_cons, List.cons_append]
    nth_rewrite 1 [ih]
    rw [List.append_assoc]

/-- A loop over the queue is a fold over the order. -/
theorem loop_eq_foldl {σ : Type*} (visit : σ → α → σ) (loop : List α → σ → σ)
    (hnil : ∀ s, loop [] s = s)
    (hcons : ∀ a queue s, loop (a :: queue) s = loop (queue ++ F.children a) (visit s a))
    (queue : List α) (s : σ) : loop queue s = (order F queue).foldl visit s := by
  induction queue using order.induct F generalizing s with
  | case1 => rw [hnil, order_nil, List.foldl_nil]
  | case2 a queue ih => rw [hcons, ih, order_cons, List.foldl_cons]

@[simp] theorem firstChild_zero (queue : List α) : firstChild F queue 0 = queue.length := by
  rw [firstChild, List.take_zero, List.flatMap_nil, List.length_nil, Nat.add_zero]

theorem firstChild_succ {queue : List α} {i : ℕ} {a : α} (h : (order F queue)[i]? = some a) :
    firstChild F queue (i + 1) = firstChild F queue i + (F.children a).length := by
  rw [firstChild, firstChild, List.take_add_one, h, Option.toList_some, List.flatMap_append,
    List.length_append, List.flatMap_singleton, Nat.add_assoc]

/-- The queue still holds a node when one is visited. -/
theorem lt_of_order {queue before after : List α} {a : α}
    (h : order F queue = before ++ a :: after) :
    before.length < queue.length + (before.flatMap F.children).length := by
  induction before generalizing queue with
  | nil =>
    cases queue with
    | nil =>
      rw [order_nil] at h
      cases h
    | cons b queue => exact Nat.succ_pos _
  | cons b before ih =>
    cases queue with
    | nil =>
      rw [order_nil] at h
      cases h
    | cons c queue =>
      rw [order_cons, List.cons_append, List.cons.injEq] at h
      obtain ⟨rfl, hrest⟩ := h
      have hlt := ih hrest
      rw [List.length_append] at hlt
      rw [List.flatMap_cons, List.length_append, List.length_cons, List.length_cons]
      omega

/-- **Children come strictly after their parent.** -/
theorem lt_firstChild {queue : List α} {i : ℕ} (h : i < (order F queue).length) :
    i < firstChild F queue i := by
  have hsplit : order F queue =
      (order F queue).take i ++ (order F queue)[i] :: (order F queue).drop (i + 1) := by
    rw [← List.drop_eq_getElem_cons h, List.take_append_drop]
  have hlt := lt_of_order hsplit
  rwa [List.length_take_of_le (Nat.le_of_lt h)] at hlt

/-- The order, cut before and after the children of a node. -/
theorem order_eq_append {queue : List α} {i : ℕ} {a : α} (h : (order F queue)[i]? = some a) :
    order F queue = queue ++ ((order F queue).take i).flatMap F.children ++
      (F.children a ++ ((order F queue).drop (i + 1)).flatMap F.children) := by
  obtain ⟨hi, rfl⟩ := List.getElem?_eq_some_iff.mp h
  have hsplit : (order F queue).flatMap F.children =
      ((order F queue).take i).flatMap F.children ++
        (F.children (order F queue)[i] ++
          ((order F queue).drop (i + 1)).flatMap F.children) := by
    rw [← List.flatMap_cons, ← List.drop_eq_getElem_cons hi, ← List.flatMap_append,
      List.take_append_drop]
  rw [List.append_assoc, ← hsplit]
  exact order_eq queue

/-- The children of a node stand in a row from its first child on. -/
theorem order_firstChild {queue : List α} {i k : ℕ} {a : α} (h : (order F queue)[i]? = some a)
    (hk : k < (F.children a).length) :
    (order F queue)[firstChild F queue i + k]? = (F.children a)[k]? := by
  have hlen : firstChild F queue i =
      (queue ++ ((order F queue).take i).flatMap F.children).length := by
    rw [firstChild, List.length_append]
  rw [hlen]
  nth_rewrite 1 [order_eq_append h]
  rw [List.getElem?_append_right (Nat.le_add_right _ _), Nat.add_sub_cancel_left,
    List.getElem?_append_left hk]

theorem firstChild_add_le {queue : List α} {i : ℕ} {a : α} (h : (order F queue)[i]? = some a) :
    firstChild F queue i + (F.children a).length ≤ (order F queue).length := by
  have hlen := congrArg List.length (order_eq_append h)
  rw [List.length_append, List.length_append, List.length_append] at hlen
  rw [firstChild]
  omega

/-- Nothing stands after the children of the last node. -/
theorem firstChild_length (queue : List α) :
    firstChild F queue (order F queue).length = (order F queue).length := by
  have hlen := congrArg List.length (order_eq (F := F) queue)
  rw [List.length_append] at hlen
  rw [firstChild, List.take_length]
  exact hlen.symm

end BreadthFirst
