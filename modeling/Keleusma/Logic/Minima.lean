import Mathlib.Data.List.Basic

/-!
# Lower bounds by a worklist

Every node of a graph is given the least of the values that reach it, by a worklist: a node
is taken from the front, its value is transferred along its edges, and a target whose value
drops is queued. The graph and what the edges do to a value are one function, which may also
refuse a node. When the list runs empty, the values found are closed under the transfer
(`run_closed`): whatever follows the edges from a node that has a value stays on nodes that
have one, at or above it.
-/

namespace Minima

/-- Why a walk fails: an edge leaves the graph, a queued node has no value, the steps have run
out, or a node is refused. -/
inductive Fault (ε : Type)
  | leaves
  | missing
  | unfinished
  | refused (e : ε)

/-- The values found so far, which nodes are queued, and the queue. -/
structure Work where
  bounds : List (Option Int)
  queued : List Bool
  work : List ℕ

variable {ε : Type}

/-- Lower the value of a node, and queue the node if that changed it. -/
def Work.enqueue (w : Work) (node : ℕ) (bound : Int) : Except (Fault ε) Work :=
  match w.bounds[node]? with
  | none => .error .leaves
  | some old =>
    if old.all fun d => bound < d then
      let w := { w with bounds := w.bounds.set node (some bound) }
      if w.queued[node]?.getD false then .ok w
      else .ok { w with queued := w.queued.set node true, work := w.work ++ [node] }
    else .ok w

/-- Lower the values at the ends of some edges. -/
def Work.enqueueAll (w : Work) : List (ℕ × Int) → Except (Fault ε) Work
  | [] => .ok w
  | e :: edges =>
    match w.enqueue e.1 e.2 with
    | .ok w => w.enqueueAll edges
    | .error e => .error e

/-- Take nodes from the queue until it is empty, at most so many. -/
def Work.run (transfer : ℕ → Int → Except ε (List (ℕ × Int))) : ℕ → Work → Except (Fault ε) Work
  | 0, w => if w.work.isEmpty then .ok w else .error .unfinished
  | fuel + 1, w =>
    match w.work with
    | [] => .ok w
    | node :: rest =>
      let w := { w with queued := w.queued.set node false, work := rest }
      match w.bounds[node]? with
      | some (some bound) =>
        match transfer node bound with
        | .ok edges =>
          match w.enqueueAll edges with
          | .ok w => Work.run transfer fuel w
          | .error e => .error e
        | .error e => .error (.refused e)
      | _ => .error .missing

/-! ## What a walk keeps -/

/-- A node has this value. -/
def At (bounds : List (Option Int)) (node : ℕ) (d : Int) : Prop := bounds[node]? = some (some d)

/-- Some value of the node is at most `d`. -/
def AtMost (bounds : List (Option Int)) (node : ℕ) (d : Int) : Prop :=
  ∃ d', At bounds node d' ∧ d' ≤ d

/-- The edges of a node with value `d` end in values no higher than what they carry. -/
def Closed (transfer : ℕ → Int → Except ε (List (ℕ × Int))) (bounds : List (Option Int))
    (node : ℕ) (d : Int) : Prop :=
  ∃ edges, transfer node d = .ok edges ∧ ∀ e ∈ edges, AtMost bounds e.1 e.2

/-- Values only drop, a node whose value dropped is queued, and nothing leaves the queue. -/
structure Lowered (w w' : Work) : Prop where
  below : ∀ node d, At w.bounds node d → AtMost w'.bounds node d
  changed : ∀ node d, At w'.bounds node d → At w.bounds node d ∨ node ∈ w'.work
  work : ∀ node ∈ w.work, node ∈ w'.work

theorem Lowered.refl (w : Work) : Lowered w w :=
  ⟨fun _ d h => ⟨d, h, Int.le_refl _⟩, fun _ _ h => .inl h, fun _ h => h⟩

theorem Lowered.atMost {w w' : Work} (h : Lowered w w') {node : ℕ} {d : Int}
    (ha : AtMost w.bounds node d) : AtMost w'.bounds node d := by
  obtain ⟨d₁, h₁, hle₁⟩ := ha
  obtain ⟨d₂, h₂, hle₂⟩ := h.below node d₁ h₁
  exact ⟨d₂, h₂, Int.le_trans hle₂ hle₁⟩

theorem Lowered.trans {w w' w'' : Work} (h : Lowered w w') (h' : Lowered w' w'') :
    Lowered w w'' where
  below node d hd := h'.atMost (h.below node d hd)
  changed node d hd := by
    rcases h'.changed node d hd with hd | hmem
    · rcases h.changed node d hd with hd | hmem
      · exact .inl hd
      · exact .inr (h'.work node hmem)
    · exact .inr hmem
  work node hmem := h'.work node (h.work node hmem)

/-- Every node that counts as queued is on the queue. -/
def Marked (w : Work) : Prop := ∀ node, w.queued[node]? = some true → node ∈ w.work

/-- Queueing a node lowers its value, and keeps the marks right. -/
theorem Work.enqueue_ok {w w' : Work} {node : ℕ} {bound : Int} (hm : Marked w)
    (h : (w.enqueue node bound : Except (Fault ε) Work) = .ok w') :
    Lowered w w' ∧ AtMost w'.bounds node bound ∧ Marked w' := by
  unfold Work.enqueue at h
  cases hold : w.bounds[node]? with
  | none =>
    rw [hold] at h
    cases h
  | some old =>
    simp only [hold] at h
    by_cases hless : (old.all fun d => decide (bound < d)) = true
    · rw [if_pos hless] at h
      have hlt : node < w.bounds.length := (List.getElem?_eq_some_iff.1 hold).1
      have hset : At (w.bounds.set node (some bound)) node bound := by
        rw [At, List.getElem?_set_self hlt]
      have hother : ∀ n d, n ≠ node →
          (At (w.bounds.set node (some bound)) n d ↔ At w.bounds n d) := by
        intro n d hn
        rw [At, At, List.getElem?_set_ne (Ne.symm hn)]
      have hbelow : ∀ n d, At w.bounds n d → AtMost (w.bounds.set node (some bound)) n d := by
        intro n d hd
        by_cases hn : n = node
        · subst hn
          obtain rfl : old = some d := Option.some.inj (hold.symm.trans hd)
          exact ⟨bound, hset, Int.le_of_lt (by simpa using hless)⟩
        · exact ⟨d, (hother n d hn).2 hd, Int.le_refl _⟩
      -- the node is queued afterwards, whether it was before or not
      have lowered : ∀ w' : Work, w'.bounds = w.bounds.set node (some bound) → node ∈ w'.work →
          (∀ n ∈ w.work, n ∈ w'.work) → Lowered w w' := by
        intro w' hb hmem hwork
        refine ⟨by rw [hb]; exact hbelow, ?_, hwork⟩
        intro n d hd
        by_cases hn : n = node
        · exact .inr (hn ▸ hmem)
        · rw [hb] at hd
          exact .inl ((hother n d hn).1 hd)
      split at h
      · next hqueued =>
        cases h
        have hmark : w.queued[node]? = some true := by
          cases hq : w.queued[node]? <;> simp_all
        exact ⟨lowered _ rfl (hm node hmark) fun _ hn => hn, ⟨bound, hset, Int.le_refl _⟩, hm⟩
      · cases h
        refine ⟨lowered _ rfl (by simp) fun _ hn => List.mem_append_left _ hn,
          ⟨bound, hset, Int.le_refl _⟩, ?_⟩
        intro n hn
        by_cases hnode : n = node
        · simp [hnode]
        · rw [List.getElem?_set_ne (Ne.symm hnode)] at hn
          exact List.mem_append_left _ (hm n hn)
    · rw [if_neg hless] at h
      cases h
      refine ⟨.refl w, ?_, hm⟩
      cases old with
      | none => simp at hless
      | some d => exact ⟨d, hold, by simpa using hless⟩

/-- After the edges of a node each of their ends is as low as they say. -/
theorem Work.enqueueAll_ok {w w' : Work} {edges : List (ℕ × Int)} (hm : Marked w)
    (h : (w.enqueueAll edges : Except (Fault ε) Work) = .ok w') :
    Lowered w w' ∧ (∀ e ∈ edges, AtMost w'.bounds e.1 e.2) ∧ Marked w' := by
  induction edges generalizing w with
  | nil =>
    cases h
    exact ⟨.refl _, by simp, hm⟩
  | cons e edges ih =>
    rw [Work.enqueueAll] at h
    cases he : (w.enqueue e.1 e.2 : Except (Fault ε) Work) with
    | error f =>
      rw [he] at h
      cases h
    | ok w₁ =>
      rw [he] at h
      obtain ⟨hlow₁, hat, hm₁⟩ := Work.enqueue_ok hm he
      obtain ⟨hlow, hall, hm'⟩ := ih hm₁ h
      refine ⟨hlow₁.trans hlow, ?_, hm'⟩
      intro e' he'
      rcases List.mem_cons.1 he' with rfl | he'
      · exact hlow.atMost hat
      · exact hall e' he'

section Run

variable {transfer : ℕ → Int → Except ε (List (ℕ × Int))}

theorem Closed.mono {w w' : Work} {node : ℕ} {d : Int} (h : Closed transfer w.bounds node d)
    (hlow : Lowered w w') : Closed transfer w'.bounds node d := by
  obtain ⟨edges, hedges, hall⟩ := h
  exact ⟨edges, hedges, fun e he => hlow.atMost (hall e he)⟩

/-- What holds between the steps: a node with a value is queued or closed. -/
structure Inv (transfer : ℕ → Int → Except ε (List (ℕ × Int))) (w : Work) : Prop where
  marked : Marked w
  closed : ∀ node d, At w.bounds node d → node ∈ w.work ∨ Closed transfer w.bounds node d

/-- With nothing queued, every node with a value is closed. -/
theorem Inv.done {w : Work} (hinv : Inv transfer w) (hempty : w.work = []) :
    ∀ node d, At w.bounds node d → Closed transfer w.bounds node d := by
  intro node d hd
  rcases hinv.closed node d hd with hmem | hclosed
  · simp [hempty] at hmem
  · exact hclosed

/-- **When a walk succeeds the values are closed under the transfer**, and no value has risen. -/
theorem Work.run_closed {fuel : ℕ} {w w' : Work} (hinv : Inv transfer w)
    (h : Work.run transfer fuel w = .ok w') :
    (∀ node d, At w'.bounds node d → Closed transfer w'.bounds node d) ∧
      ∀ node d, AtMost w.bounds node d → AtMost w'.bounds node d := by
  induction fuel generalizing w with
  | zero =>
    rw [Work.run] at h
    split at h
    · next hempty =>
      cases h
      exact ⟨hinv.done (by simpa using hempty), fun _ _ h => h⟩
    · cases h
  | succ fuel ih =>
    rw [Work.run] at h
    cases hwork : w.work with
    | nil =>
      simp only [hwork] at h
      cases h
      exact ⟨hinv.done hwork, fun _ _ h => h⟩
    | cons node rest =>
      simp only [hwork] at h
      split at h
      · next bound hbound =>
        split at h
        · next edges hedges =>
          split at h
          · next w₂ hw₂ =>
            -- taking the node off the queue: only its own closedness is open now
            have hm₁ : Marked { w with queued := w.queued.set node false, work := rest } := by
              intro n hn
              by_cases hnode : n = node
              · subst hnode
                rw [List.getElem?_set] at hn
                split at hn <;> simp_all
              · rw [List.getElem?_set_ne (Ne.symm hnode)] at hn
                have hmem := hinv.marked n hn
                rw [hwork] at hmem
                exact (List.mem_cons.1 hmem).resolve_left hnode
            obtain ⟨hlow, hall, hm₂⟩ := Work.enqueueAll_ok hm₁ hw₂
            have hinv₂ : Inv transfer w₂ := by
              refine ⟨hm₂, ?_⟩
              intro n d hd
              rcases hlow.changed n d hd with hd₁ | hmem
              · by_cases hnode : n = node
                · subst hnode
                  obtain rfl : bound = d := by
                    have heq := hbound.symm.trans hd₁
                    simpa using heq
                  exact .inr ⟨edges, hedges, hall⟩
                · rcases hinv.closed n d hd₁ with hmem | hclosed
                  · rw [hwork] at hmem
                    exact .inl (hlow.work n ((List.mem_cons.1 hmem).resolve_left hnode))
                  · exact .inr (hclosed.mono (w := { w with
                      queued := w.queued.set node false, work := rest }) hlow)
              · exact .inl hmem
            obtain ⟨hclosed, hbelow⟩ := ih hinv₂ h
            exact ⟨hclosed, fun n d hd => hbelow n d (hlow.atMost hd)⟩
          · cases h
        · cases h
      · cases h

end Run

end Minima
