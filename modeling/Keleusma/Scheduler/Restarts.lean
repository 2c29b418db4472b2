import Keleusma.Scheduler.Wakeups
import Mathlib.Algebra.Order.Group.Nat
import Mathlib.Data.List.Count

/-!
# Restarts

A task that returned or failed is restarted if its policy asks for it and fewer restarts than its
limit lie in the window before. The scheduler keeps the instants of the restarts and drops them
from the front once they leave the window, so in every run the restarts of a task are rate limited
(`restarts_limited`). A task at its limit is disabled, and so is one that cannot be restarted; it
is never dispatched again.
-/

/-! ## Rate limits -/

/-- No interval of the width holds more than `limit` of the instants. -/
def RateLimited {α : Type*} [LE α] [DecidableLE α] [Add α] (limit : ℕ) (width : α)
    (times : List α) : Prop :=
  ∀ a b, b ≤ a + width → times.countP (fun t => a ≤ t ∧ t ≤ b) ≤ limit

namespace RateLimited

variable {α : Type*} [Preorder α] [DecidableLE α] [Add α] {limit : ℕ} {width : α} {times : List α}

theorem nil : RateLimited limit width ([] : List α) := fun _ _ _ => Nat.zero_le _

/-- **A later instant** joins them if there is room in the window that ends with it. -/
theorem snoc [AddRightMono α] {now : α} (h : RateLimited limit width times)
    (hroom : times.countP (fun t => now ≤ t + width) < limit) :
    RateLimited limit width (times ++ [now]) := by
  intro a b hab
  rw [List.countP_append, List.countP_singleton]
  split_ifs with hnow
  · -- what the interval holds lies in the window of the new instant
    have hin : times.countP (fun t => a ≤ t ∧ t ≤ b) ≤ times.countP (fun t => now ≤ t + width) := by
      refine List.countP_mono_left fun t _ ht => ?_
      simp only [decide_eq_true_eq] at ht hnow ⊢
      calc now ≤ b := hnow.2
        _ ≤ a + width := hab
        _ ≤ t + width := add_le_add_left ht.1 width
    omega
  · exact h a b hab

end RateLimited

namespace KeleusmaTasks

/-! ## The exits of a task -/

/-- Whether a dispatch ends in an exit, and whether that is an error. -/
def VmState.exit : VmState → Option Bool
  | .finished => some false
  | .breakpointHit | .error => some true
  | _ => none

/-- A task whose machine returned or failed. -/
structure Exit where
  task : Task
  wasError : Bool
  turn : Turn

namespace Exit

/-- When the exit happened. -/
def instant (e : Exit) : Duration := e.turn.instant

/-- The task after the exit. -/
def after (e : Exit) : Task := onTaskExit e.task e.wasError e.turn

/-- The policy asks for a restart. -/
def asked (e : Exit) : Bool := shouldRestart e.task.cfg.restart e.wasError

/-- The task has a new machine. -/
def restarted (e : Exit) : Bool := e.after.vm != e.task.vm

end Exit

/-- The task that an iteration dispatches, and its index. -/
def dispatched (s : Scheduler) (r : Reading) : Option (Task × Nat) :=
  let s := takeReload (takeShutdown s r) r
  if graceElapsed s r.nowMs then none else candidate (awaken s r.nowMs).tasks

/-- The exit of task `i` in an iteration. -/
def exitOf (i : Nat) (s : Scheduler) (r : Reading) : Option Exit :=
  match dispatched s r with
  | some (t, j) =>
    if j = i then r.turn.outcome.exit.map fun wasError => ⟨t, wasError, r.turn⟩ else none
  | none => none

/-- The exits of task `i` over the readings the loop makes. -/
def exitsOf (i : Nat) (s : Scheduler) : List Reading → List Exit
  | [] => []
  | r :: readings =>
    (exitOf i s r).toList ++
      match iteration s r with
      | .ok s => exitsOf i s readings
      | .error _ => []

/-- The instants of the restarts. -/
def restartTimes (exits : List Exit) : List Duration :=
  (exits.filter Exit.restarted).map Exit.instant

theorem restartTimes_snoc (past : List Exit) (e : Exit) :
    restartTimes (past ++ [e]) =
      restartTimes past ++ if e.restarted then [e.instant] else [] := by
  rw [restartTimes, List.filter_append, List.map_append, restartTimes]
  cases h : e.restarted <;> simp [h]

/-! ## The window -/

/-- **What is dropped** from instants in order has left the window, and what is kept is in it. -/
theorem withinWindow_spec (now window : ℕ) {history : List ℕ} (h : history.Pairwise (· ≤ ·)) :
    ∃ dropped, history = dropped ++ withinWindow now window history ∧
      (∀ t ∈ dropped, t + window < now) ∧
      ∀ t ∈ withinWindow now window history, now ≤ t + window := by
  induction history with
  | nil => exact ⟨[], rfl, List.forall_mem_nil _, List.forall_mem_nil _⟩
  | cons t history ih =>
    obtain ⟨ht, hrest⟩ := List.pairwise_cons.mp h
    rw [withinWindow]
    by_cases hold : window < now - t
    · obtain ⟨dropped, heq, hdropped, hkept⟩ := ih hrest
      rw [if_pos hold]
      refine ⟨t :: dropped, congrArg (t :: ·) heq, List.forall_mem_cons.mpr ⟨?_, hdropped⟩, hkept⟩
      omega
    · rw [if_neg hold]
      refine ⟨[], rfl, List.forall_mem_nil _, List.forall_mem_cons.mpr ⟨?_, fun u hu => ?_⟩⟩
      · omega
      · have := ht u hu
        omega

/-- **What an exit does**, by what it meets: no restart is asked for, the window is full, the
environment refuses, or the task is restarted. -/
theorem Exit.after_cases (e : Exit) :
    let history := withinWindow e.instant e.task.cfg.restartWindow e.task.restartHistory
    (e.asked = false ∧ e.restarted = false ∧ e.after.disabled = e.task.disabled ∧
      e.after.restartHistory = e.task.restartHistory) ∨
    (e.task.cfg.restartLimit ≤ history.length ∧ e.restarted = false ∧ e.after.disabled = true) ∨
    (history.length < e.task.cfg.restartLimit ∧ ¬(e.turn.arenaReset ∧ e.turn.vmNew) ∧
      e.restarted = false ∧ e.after.disabled = true) ∨
    (history.length < e.task.cfg.restartLimit ∧ (e.turn.arenaReset ∧ e.turn.vmNew) ∧
      e.restarted = true ∧ e.after.disabled = e.task.disabled ∧
      e.after.restartHistory = history ++ [e.instant]) := by
  intro history
  have hnot {t : Task} (ht : e.after = t) (hvm : t.vm = e.task.vm) : e.restarted = false := by
    rw [restarted, ht, hvm, bne_self_eq_false]
  have hafter : e.after = onTaskExit e.task e.wasError e.turn := rfl
  rw [onTaskExit] at hafter
  dsimp only at hafter
  split_ifs at hafter with hasked hfull harena hvm
  · rw [Bool.not_eq_true'] at hasked
    exact .inl ⟨hasked, hnot hafter rfl, by rw [hafter], by rw [hafter]⟩
  · exact .inr (.inl ⟨hfull, hnot hafter rfl, by rw [hafter]⟩)
  · refine .inr (.inr (.inl ⟨not_le.mp hfull, fun h => ?_, hnot hafter rfl, by rw [hafter]⟩))
    rw [h.1] at harena
    cases harena
  · refine .inr (.inr (.inl ⟨not_le.mp hfull, fun h => ?_, hnot hafter rfl, by rw [hafter]⟩))
    rw [h.2] at hvm
    cases hvm
  · rw [Bool.not_eq_true', Bool.not_eq_false] at harena hvm
    refine .inr (.inr (.inr
      ⟨not_le.mp hfull, ⟨harena, hvm⟩, ?_, by rw [hafter], by rw [hafter]; rfl⟩))
    rw [restarted, hafter, bne_iff_ne]
    exact Nat.succ_ne_self _

/-- The restarts of a task so far, as far as its record tells: they are rate limited, and all that
are not in the record have left the window. -/
structure Windowed (limit window : ℕ) (past : List Exit) (t : Task) : Prop where
  limited : RateLimited limit window (restartTimes past)
  recorded : t.disabled = false → ∃ old, restartTimes past = old ++ t.restartHistory ∧
    ∀ now : ℕ, (∀ e ∈ past, e.instant ≤ now) → ∀ u ∈ old, u + window < now

/-- What an exit owes its task: the restart it asks for, if there is room for it in the window and
the environment lets the task be restarted. -/
def Served (limit window : ℕ) (past : List Exit) (e : Exit) : Prop :=
  e.asked = true → (restartTimes past).countP (fun t => e.instant ≤ t + window) < limit →
    if e.turn.arenaReset ∧ e.turn.vmNew then e.restarted = true else e.after.disabled = true

/-- **An exit** keeps the record and restarts the task when it may. -/
theorem Windowed.exit {limit window : ℕ} {past : List Exit} {e : Exit}
    (h : Windowed limit window past e.task) (hlimit : e.task.cfg.restartLimit = limit)
    (hwindow : e.task.cfg.restartWindow = window) (henabled : e.task.disabled = false)
    (hclock : ((past ++ [e]).map Exit.instant).Pairwise (· ≤ ·)) :
    Windowed limit window (past ++ [e]) e.after ∧ Served limit window past e := by
  obtain ⟨old, htimes, hold⟩ := h.recorded henabled
  rw [List.map_append, List.pairwise_append] at hclock
  obtain ⟨hpast, -, hlast⟩ := hclock
  have hle : ∀ d ∈ past, d.instant ≤ e.instant := fun d hd =>
    hlast _ (List.mem_map_of_mem hd) _ (List.mem_singleton_self _)
  have hsorted : (restartTimes past).Pairwise (· ≤ ·) :=
    hpast.sublist (List.filter_sublist.map Exit.instant)
  rw [htimes, List.pairwise_append] at hsorted
  obtain ⟨dropped, hhistory, hdropped, hkept⟩ :=
    withinWindow_spec e.instant window hsorted.2.1
  -- the record, pruned, is what the window holds of all restarts
  have hcount : (restartTimes past).countP (fun t => e.instant ≤ t + window) =
      (withinWindow e.instant window e.task.restartHistory).length := by
    have hout {l : List ℕ} (hl : ∀ t ∈ l, t + window < e.instant) :
        l.countP (fun t => e.instant ≤ t + window) = 0 :=
      List.countP_eq_zero.mpr fun t ht => by simpa using hl t ht
    rw [htimes, List.countP_append, hout (hold _ hle), Nat.zero_add]
    conv_lhs => rw [hhistory]
    rw [List.countP_append, hout hdropped, Nat.zero_add, List.countP_eq_length]
    exact fun t ht => decide_eq_true (hkept t ht)
  have hsame (hno : e.restarted = false) : restartTimes (past ++ [e]) = restartTimes past := by
    rw [restartTimes_snoc, hno, if_neg Bool.false_ne_true, List.append_nil]
  have hcases := e.after_cases
  rw [hwindow, hlimit] at hcases
  dsimp only at hcases
  rcases hcases with ⟨hasked, hno, hdis, hhist⟩ | ⟨hfull, hno, hdis⟩ | ⟨hroom, henv, hno, hdis⟩ |
    ⟨hroom, henv, hyes, hdis, hhist⟩
  · refine ⟨⟨hsame hno ▸ h.limited, fun _ => ⟨old, ?_, fun now hnow => hold now fun d hd =>
      hnow d (List.mem_append_left _ hd)⟩⟩, fun hask => ?_⟩
    · rw [hsame hno, hhist, htimes]
    · rw [hasked] at hask
      cases hask
  · refine ⟨⟨hsame hno ▸ h.limited, fun hen => ?_⟩, fun _ hlt => ?_⟩
    · rw [hdis] at hen
      cases hen
    · rw [hcount] at hlt
      exact absurd hfull (not_le.mpr hlt)
  · refine ⟨⟨hsame hno ▸ h.limited, fun hen => ?_⟩, fun _ _ => ?_⟩
    · rw [hdis] at hen
      cases hen
    · rw [if_neg henv]
      exact hdis
  · have htimes' : restartTimes (past ++ [e]) = restartTimes past ++ [e.instant] := by
      rw [restartTimes_snoc, hyes, if_pos rfl]
    refine ⟨⟨?_, fun _ => ⟨old ++ dropped, ?_, fun now hnow u hu => ?_⟩⟩, fun _ _ => ?_⟩
    · rw [htimes']
      exact h.limited.snoc (hcount ▸ hroom)
    · rw [htimes', hhist, htimes]
      conv_lhs => rw [hhistory]
      simp only [List.append_assoc]
    · rcases List.mem_append.mp hu with hu | hu
      · exact hold now (fun d hd => hnow d (List.mem_append_left _ hd)) u hu
      · have hnow := hnow e (List.mem_append_right _ (List.mem_singleton_self e))
        exact (hdropped u hu).trans_le hnow
    · rw [if_pos henv]
      exact hyes

/-! ## The record through an iteration -/

/-- What the restart policy goes by is the same. -/
def SameRecord (t u : Task) : Prop :=
  u.restartHistory = t.restartHistory ∧ u.disabled = t.disabled

theorem SameRecord.trans {t u v : Task} (h : SameRecord t u) (h' : SameRecord u v) :
    SameRecord t v := ⟨h'.1.trans h.1, h'.2.trans h.2⟩

theorem refreshTask_sameRecord (now : Word) (t : Task) : SameRecord t (refreshTask now t) := by
  unfold refreshTask
  split
  · split
    · exact ⟨rfl, rfl⟩
    · exact ⟨rfl, rfl⟩
  · exact ⟨rfl, rfl⟩

theorem wakeTask_sameRecord (e : Event) (t : Task) : SameRecord t (wakeTask e t) := by
  unfold wakeTask
  split
  · split
    · exact ⟨rfl, rfl⟩
    · exact ⟨rfl, rfl⟩
  · exact ⟨rfl, rfl⟩

theorem foldl_wakeTask_sameRecord (events : List Event) (t : Task) :
    SameRecord t (events.foldl (fun t e => wakeTask e t) t) := by
  induction events generalizing t with
  | nil => exact ⟨rfl, rfl⟩
  | cons e events ih => exact (wakeTask_sameRecord e t).trans (ih _)

theorem promoteTask_sameRecord (t : Task) : SameRecord t (promoteTask t) := by
  unfold promoteTask
  split
  · split
    · exact ⟨rfl, rfl⟩
    · exact ⟨rfl, rfl⟩
  · exact ⟨rfl, rfl⟩

/-- The scheduler when the candidate is picked. -/
def awakened (s : Scheduler) (r : Reading) : Scheduler :=
  awaken (takeReload (takeShutdown s r) r) r.nowMs

theorem awakened_sameRecord {s : Scheduler} {r : Reading} {i : Nat} {u : Task}
    (h : (awakened s r).tasks[i]? = some u) : ∃ t, s.tasks[i]? = some t ∧ SameRecord t u := by
  simp only [awakened, awaken, wakeTasks_eq, List.getElem?_map, Option.map_eq_some_iff] at h
  obtain ⟨-, ⟨-, ⟨t', ht', rfl⟩, rfl⟩, rfl⟩ := h
  obtain ⟨t, cfg, ht, rfl⟩ := getElem?_signals ht'
  have hcfg : SameRecord t { t with cfg := cfg } := ⟨rfl, rfl⟩
  exact ⟨t, ht, hcfg.trans <| (refreshTask_sameRecord r.nowMs _).trans <|
    (foldl_wakeTask_sameRecord _ _).trans (promoteTask_sameRecord _)⟩

/-- The dispatched task is at its index and is not disabled. -/
theorem dispatched_spec {s : Scheduler} {r : Reading} {t : Task} {j : Nat}
    (h : dispatched s r = some (t, j)) :
    (awakened s r).tasks[j]? = some t ∧ t.disabled = false := by
  simp only [dispatched] at h
  split_ifs at h
  obtain ⟨ht, hrun⟩ := candidate_runnable h
  simp only [runnable, Bool.and_eq_true, Bool.not_eq_true'] at hrun
  exact ⟨ht, hrun.2⟩

theorem dispatchOne_exit {t : Task} {now : Word} {turn : Turn} {wasError : Bool}
    (h : turn.outcome.exit = some wasError) :
    dispatchOne t now turn = onTaskExit t wasError turn := by
  unfold dispatchOne
  cases hout : turn.outcome with
  | yielded pair | reset =>
    rw [hout] at h
    cases h
  | finished | breakpointHit | error =>
    rw [hout] at h
    cases h
    rfl

theorem dispatchOne_sameRecord {t : Task} {now : Word} {turn : Turn}
    (h : turn.outcome.exit = none) : SameRecord t (dispatchOne t now turn) := by
  unfold dispatchOne
  cases hout : turn.outcome with
  | yielded pair =>
    cases pair with
    | none => exact ⟨rfl, rfl⟩
    | some pair => exact ⟨rfl, rfl⟩
  | reset => exact ⟨rfl, rfl⟩
  | finished | breakpointHit | error =>
    rw [hout] at h
    cases h

/-- What an iteration makes of the tasks. -/
theorem iteration_tasks {s s' : Scheduler} {r : Reading} (h : iteration s r = .ok s') :
    s'.tasks = match dispatched s r with
      | some (t, j) => (awakened s r).tasks.set j (dispatchOne t r.nowMs r.turn)
      | none => (awakened s r).tasks := by
  simp only [iteration] at h
  simp only [dispatched]
  by_cases hgrace : graceElapsed (takeReload (takeShutdown s r) r) r.nowMs
  · rw [if_pos hgrace] at h
    cases h
  rw [if_neg hgrace] at h ⊢
  cases hcandidate : candidate (awaken (takeReload (takeShutdown s r) r) r.nowMs).tasks with
  | none =>
    simp only [hcandidate] at h
    split_ifs at h
    obtain rfl := Except.ok.inj h
    rfl
  | some pair =>
    simp only [hcandidate] at h
    obtain rfl := Except.ok.inj h
    rfl

/-- An iteration with which the loop returns dispatches no task. -/
theorem dispatched_of_error {s : Scheduler} {r : Reading} {outcome : Shutdown}
    (h : iteration s r = .error outcome) : dispatched s r = none := by
  simp only [iteration] at h
  simp only [dispatched]
  by_cases hgrace : graceElapsed (takeReload (takeShutdown s r) r) r.nowMs
  · rw [if_pos hgrace]
  rw [if_neg hgrace] at h ⊢
  cases hcandidate : candidate (awaken (takeReload (takeShutdown s r) r) r.nowMs).tasks with
  | none => rfl
  | some pair =>
    simp only [hcandidate] at h
    cases h

/-- A task that exits was not disabled, and had its record before the iteration. -/
theorem exitOf_spec {s : Scheduler} {r : Reading} {i : Nat} {e : Exit}
    (h : exitOf i s r = some e) :
    e.task.disabled = false ∧ ∃ t, s.tasks[i]? = some t ∧ SameRecord t e.task := by
  rw [exitOf] at h
  rcases hd : dispatched s r with _ | ⟨t, j⟩
  · simp only [hd] at h
    cases h
  · simp only [hd] at h
    obtain ⟨hj, henabled⟩ := dispatched_spec hd
    by_cases hji : j = i
    · rw [if_pos hji] at h
      obtain ⟨wasError, -, rfl⟩ := Option.map_eq_some_iff.mp h
      exact ⟨henabled, hji ▸ awakened_sameRecord hj⟩
    · rw [if_neg hji] at h
      cases h

/-- **Through an iteration** the record of a task stays the same, up to its exit. -/
theorem iteration_record {s s' : Scheduler} {r : Reading} {i : Nat} {t' : Task}
    (h : iteration s r = .ok s') (ht' : s'.tasks[i]? = some t') :
    match exitOf i s r with
    | some e => t' = e.after
    | none => ∃ t, s.tasks[i]? = some t ∧ SameRecord t t' := by
  rw [iteration_tasks h] at ht'
  rw [exitOf]
  rcases hd : dispatched s r with _ | ⟨t, j⟩
  · simp only [hd] at ht'
    exact awakened_sameRecord ht'
  · obtain ⟨hj, henabled⟩ := dispatched_spec hd
    simp only [hd] at ht' ⊢
    by_cases hji : j = i
    · subst hji
      obtain ⟨u, hu, hsame⟩ := awakened_sameRecord hj
      rw [List.getElem?_set_self (List.getElem?_eq_some_iff.mp hj).1] at ht'
      cases ht'
      rw [if_pos rfl]
      cases hexit : r.turn.outcome.exit with
      | none => exact ⟨u, hu, hsame.trans (dispatchOne_sameRecord hexit)⟩
      | some wasError => exact dispatchOne_exit hexit
    · rw [List.getElem?_set_ne hji] at ht'
      rw [if_neg hji]
      exact awakened_sameRecord ht'

/-! ## Runs -/

theorem Windowed.of_sameRecord {limit window : ℕ} {past : List Exit} {t u : Task}
    (h : Windowed limit window past t) (hsame : SameRecord t u) : Windowed limit window past u where
  limited := h.limited
  recorded hu := hsame.1 ▸ h.recorded (hsame.2 ▸ hu)

/-- The exits of a run with fixed settings, by induction on the readings: the past exits have led
to the record that the task has at the start. -/
theorem exitsOf_served {limit window : ℕ} {i : Nat} {readings : List Reading} {s : Scheduler}
    {past : List Exit} (hlimited : RateLimited limit window (restartTimes past))
    (h : ∀ t, s.tasks[i]? = some t → Windowed limit window past t)
    (hfixed : ∀ e ∈ exitsOf i s readings,
      e.task.cfg.restartLimit = limit ∧ e.task.cfg.restartWindow = window)
    (hclock : ((past ++ exitsOf i s readings).map Exit.instant).Pairwise (· ≤ ·)) :
    RateLimited limit window (restartTimes (past ++ exitsOf i s readings)) ∧
      ∀ before e after, exitsOf i s readings = before ++ e :: after →
        Served limit window (past ++ before) e := by
  induction readings generalizing s past with
  | nil =>
    rw [exitsOf, List.append_nil]
    refine ⟨hlimited, fun before e after hsplit => ?_⟩
    cases before <;> cases hsplit
  | cons r readings ih =>
    rw [exitsOf] at hfixed hclock ⊢
    cases hs : iteration s r with
    | error outcome =>
      have hnone : exitOf i s r = none := by rw [exitOf, dispatched_of_error hs]
      simp only [hnone, Option.toList_none, List.append_nil]
      refine ⟨hlimited, fun before e after hsplit => ?_⟩
      cases before <;> cases hsplit
    | ok s' =>
      have hrecord {t' : Task} (ht' : s'.tasks[i]? = some t') := iteration_record hs ht'
      simp only [hs] at hfixed hclock ⊢
      cases he : exitOf i s r with
      | none =>
        simp only [he, Option.toList_none, List.nil_append] at hfixed hclock hrecord ⊢
        refine ih hlimited (fun t' ht' => ?_) hfixed hclock
        obtain ⟨t, ht, hsame⟩ := hrecord ht'
        exact (h t ht).of_sameRecord hsame
      | some e =>
        simp only [he, Option.toList_some] at hfixed hclock hrecord ⊢
        obtain ⟨henabled, t, ht, hsame⟩ := exitOf_spec he
        rw [← List.append_assoc] at hclock ⊢
        have hbefore := hclock
        rw [List.map_append, List.pairwise_append] at hbefore
        obtain ⟨hlimit, hwindow⟩ := hfixed e (List.mem_append_left _ (List.mem_singleton_self e))
        obtain ⟨hafter, hserved⟩ := ((h t ht).of_sameRecord hsame).exit hlimit hwindow henabled
          hbefore.1
        obtain ⟨hrate, hrest⟩ := ih hafter.limited (fun t' ht' => hrecord ht' ▸ hafter)
          (fun d hd => hfixed d (List.mem_append_right _ hd)) hclock
        refine ⟨hrate, fun before d after hsplit => ?_⟩
        cases before with
        | nil =>
          obtain ⟨rfl, -⟩ := List.cons.inj hsplit
          rw [List.append_nil]
          exact hserved
        | cons b before =>
          obtain ⟨rfl, htail⟩ := List.cons.inj (show e :: exitsOf i s' readings = _ from hsplit)
          have := hrest before d after htail
          rwa [List.append_assoc] at this

/-! ## Disabled tasks -/

/-- Task `i` is disabled. -/
def Disabled (i : Nat) (s : Scheduler) : Prop := ∃ t, s.tasks[i]? = some t ∧ t.disabled = true

theorem length_reloadTask (cfg : TaskConfig) (tasks : List Task) :
    (reloadTask cfg tasks).length = tasks.length := by
  induction tasks with
  | nil => rfl
  | cons t tasks ih =>
    rw [reloadTask]
    split_ifs
    · rfl
    · exact congrArg Nat.succ ih

theorem length_reloadTasks (cfgs : List TaskConfig) (tasks : List Task) :
    (cfgs.foldl (fun tasks cfg => reloadTask cfg tasks) tasks).length = tasks.length := by
  induction cfgs generalizing tasks with
  | nil => rfl
  | cons cfg cfgs ih => exact (ih _).trans (length_reloadTask cfg tasks)

theorem length_awakened (s : Scheduler) (r : Reading) :
    (awakened s r).tasks.length = s.tasks.length := by
  have hshutdown : (takeShutdown s r).tasks = s.tasks := by
    unfold takeShutdown
    split <;> rfl
  simp only [awakened, awaken, wakeTasks_eq, List.length_map]
  unfold takeReload
  split_ifs
  · cases hm : r.incoming with
    | none => rw [reloadManifest, hshutdown]
    | some m => rw [reloadManifest, length_reloadTasks, hshutdown]
  · rw [hshutdown]

/-- A disabled task is not the one dispatched. -/
theorem Disabled.not_dispatched {i : Nat} {s : Scheduler} (h : Disabled i s) (r : Reading) :
    Disabled i (awakened s r) ∧ ∀ t j, dispatched s r = some (t, j) → j ≠ i := by
  obtain ⟨t, ht, hdis⟩ := h
  have hlen : i < (awakened s r).tasks.length :=
    length_awakened s r ▸ (List.getElem?_eq_some_iff.mp ht).1
  have hu : (awakened s r).tasks[i]? = some (awakened s r).tasks[i] := List.getElem?_eq_getElem hlen
  obtain ⟨t', ht', hsame⟩ := awakened_sameRecord hu
  rw [ht] at ht'
  cases ht'
  refine ⟨⟨_, hu, hsame.2.trans hdis⟩, fun v j hv hji => ?_⟩
  obtain ⟨hj, henabled⟩ := dispatched_spec hv
  rw [hji, hu] at hj
  cases hj
  rw [hsame.2, hdis] at henabled
  cases henabled

/-- **A disabled task stays disabled.** -/
theorem Disabled.iteration {i : Nat} {s s' : Scheduler} {r : Reading} (h : Disabled i s)
    (hs : iteration s r = .ok s') : Disabled i s' := by
  obtain ⟨⟨u, hu, hdis⟩, hother⟩ := h.not_dispatched r
  refine ⟨u, ?_, hdis⟩
  rw [iteration_tasks hs]
  rcases hd : dispatched s r with _ | ⟨t, j⟩
  · exact hu
  · simp only
    rw [List.getElem?_set_ne (hother t j hd)]
    exact hu

/-- What shows that task `i` runs or is given a new machine. -/
def Happening.concerns (i : Nat) : Happening → Prop
  | .dispatched d => d.task = i
  | .restarted j => j = i
  | _ => False

/-- What an iteration shows besides the clock and the signals is of the task it dispatches. -/
theorem concerns_happenings {i : Nat} {s : Scheduler} {r : Reading} {x : Happening}
    (hx : x ∈ happenings s r) (h : x.concerns i) : ∃ t, dispatched s r = some (t, i) := by
  have hposted {posts : List Post} (hmem : x ∈ posts.map Happening.posted) : False := by
    obtain ⟨p, -, rfl⟩ := List.mem_map.mp hmem
    exact h
  rcases List.mem_cons.mp hx with rfl | hx
  · exact h.elim
  rcases List.mem_append.mp hx with hx | hx
  · exact (hposted hx).elim
  simp only [dispatched] at hx ⊢
  split_ifs at hx ⊢ with hgrace
  · cases hx
  cases hcandidate : candidate (awaken (takeReload (takeShutdown s r) r) r.nowMs).tasks with
  | none =>
    rw [hcandidate] at hx
    cases hx
  | some pair =>
    obtain ⟨t, j⟩ := pair
    rw [hcandidate] at hx
    suffices j = i from ⟨t, by rw [this]⟩
    rcases List.mem_cons.mp hx with rfl | hx
    · exact h
    rcases List.mem_append.mp hx with hx | hx
    · rcases List.mem_append.mp hx with hx | hx
      · exact (hposted hx).elim
      · obtain ⟨y, -, rfl⟩ := List.mem_map.mp hx
        exact h.elim
    · split_ifs at hx
      · cases hx
      · obtain rfl := List.mem_singleton.mp hx
        exact h

/-- In a run from a scheduler where task `i` is disabled nothing shows that it runs. -/
theorem Disabled.quiet {i : Nat} {s : Scheduler} (h : Disabled i s) (readings : List Reading) :
    ∀ x ∈ trace s readings, ¬x.concerns i := by
  induction readings generalizing s with
  | nil => exact List.forall_mem_nil _
  | cons r readings ih =>
    rw [trace]
    refine List.forall_mem_append.mpr ⟨fun x hx hc => ?_, ?_⟩
    · obtain ⟨t, ht⟩ := concerns_happenings hx hc
      exact (h.not_dispatched r).2 t i ht rfl
    · cases hs : KeleusmaTasks.iteration s r with
      | error outcome => exact List.forall_mem_nil _
      | ok s' => exact ih (h.iteration hs)

/-! ## Main result -/

theorem windowed_start (limit window : ℕ) {m : Manifest} {i : Nat} {t : Task}
    (h : (start m).tasks[i]? = some t) : Windowed limit window [] t := by
  simp only [start, List.getElem?_map, Option.map_eq_some_iff] at h
  obtain ⟨cfg, -, rfl⟩ := h
  exact ⟨.nil, fun _ => ⟨[], rfl, fun _ _ => List.forall_mem_nil _⟩⟩

/-- **The restarts of a task are rate limited**: in every run in which the limit and the window of
a task stay as they are and its exits come in order of time, no interval of the window's length
holds more of its restarts than the limit. An exit whose policy asks for a restart while fewer lie
in the window before it leads to one, except where the arena cannot be reset or no machine can be
built, which disables the task. Once the task is disabled it is neither dispatched nor restarted. -/
theorem restarts_limited (m : Manifest) (readings : List Reading) (i : Nat) (limit : ℕ)
    (window : Duration)
    (hfixed : ∀ e ∈ exitsOf i (start m) readings,
      e.task.cfg.restartLimit = limit ∧ e.task.cfg.restartWindow = window)
    (hclock : ((exitsOf i (start m) readings).map Exit.instant).Pairwise (· ≤ ·)) :
    RateLimited limit window (restartTimes (exitsOf i (start m) readings)) ∧
    (∀ before e after, exitsOf i (start m) readings = before ++ e :: after →
      Served limit window before e) ∧
    ∀ earlier later s, readings = earlier ++ later → dispatchLoop (start m) earlier = .ok s →
      Disabled i s → ∀ x ∈ trace s later, ¬x.concerns i := by
  obtain ⟨hrate, hserved⟩ := @exitsOf_served limit window i readings (start m) [] .nil
    (fun t => windowed_start limit window) hfixed hclock
  exact ⟨hrate, hserved, fun _ later _ _ _ hdis => hdis.quiet later⟩

/-! ## A task at its limit and one that cannot be restarted -/

/-- A manifest with one task that may be restarted once a minute. -/
def fragile : Manifest where
  shutdownGrace := 5000000000
  tasks := [⟨"worker", none, .onError, 1, 60000000000, 0⟩]
  events := []

/-- An iteration in which the dispatched machine fails, at the instant. -/
def failsAt (instant : Duration) (arenaReset : Bool) : Reading where
  nowMs := instant.asMillis
  turn := ⟨[], .error, instant, arenaReset, true⟩

/-- The second failure within the minute disables the task. -/
theorem fragile_limited :
    (∀ e ∈ exitsOf 0 (start fragile) [failsAt 1000000 true, failsAt 60001000000 true],
      e.task.cfg.restartLimit = 1 ∧ e.task.cfg.restartWindow = 60000000000) ∧
    restartTimes (exitsOf 0 (start fragile) [failsAt 1000000 true, failsAt 60001000000 true]) =
      [1000000] ∧
    RateLimited 1 60000000000
      (restartTimes (exitsOf 0 (start fragile) [failsAt 1000000 true, failsAt 60001000000 true])) :=
        by
  have hfixed : ∀ e ∈ exitsOf 0 (start fragile) [failsAt 1000000 true, failsAt 60001000000 true],
      e.task.cfg.restartLimit = 1 ∧ e.task.cfg.restartWindow = 60000000000 :=
    List.forall_mem_cons.mpr ⟨⟨rfl, rfl⟩, List.forall_mem_cons.mpr
      ⟨⟨rfl, rfl⟩, List.forall_mem_nil _⟩⟩
  exact ⟨hfixed, rfl, (restarts_limited fragile _ 0 1 60000000000 hfixed (by decide)).1⟩

/-- A task whose arena cannot be reset is disabled, though its policy asks for a restart and none
came before. -/
theorem fragile_not_restarted :
    ¬∀ (m : Manifest) (readings : List Reading) (i limit : ℕ) (window : Duration),
      (∀ e ∈ exitsOf i (start m) readings,
        e.task.cfg.restartLimit = limit ∧ e.task.cfg.restartWindow = window) →
      ((exitsOf i (start m) readings).map Exit.instant).Pairwise (· ≤ ·) →
      ∀ before e after, exitsOf i (start m) readings = before ++ e :: after →
        e.asked = true →
        (restartTimes before).countP (fun t => e.instant ≤ t + window) < limit →
        e.restarted = true := by
  intro h
  have := h fragile [failsAt 1000000 false] 0 1 60000000000
    (List.forall_mem_cons.mpr ⟨⟨rfl, rfl⟩, List.forall_mem_nil _⟩) (by decide) [] _ [] rfl rfl
    (by decide)
  exact absurd this (by decide)

end KeleusmaTasks
