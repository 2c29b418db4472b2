import Keleusma.Scheduler.Tracking

/-!
# When the wake-up contract is kept

The invariant of `Tracking` holds at every dispatch of every run, and there the contract
comes down to `Genuine`: whether a run keeps to the contract can be told from what its tasks
yielded and which events were posted when.
-/

namespace KeleusmaTasks

/-! ## At a dispatch -/

section AtDispatch

variable {t : Task} {L : Ledger} {i : Nat}

theorem viaCall_iff (hready : t.state = .ready) :
    viaCall t = true ↔ t.lastWakeupReason = wakeupFirst := by
  simp [viaCall, hready]

theorem setWidth_eq_zero_iff (b : BitVec 8) : b.setWidth 64 = 0 ↔ b = 0 := by
  constructor
  · intro h
    have hlow := congrArg (BitVec.setWidth 8) h
    simpa using hlow
  · rintro rfl
    rfl

/-- The low byte of a word is the word exactly for a byte. -/
theorem setWidth_setWidth_eq_iff (w : Word) : (w.setWidth 8).setWidth 64 = w ↔ w.toNat < 256 := by
  rw [← BitVec.toNat_inj, BitVec.toNat_setWidth, BitVec.toNat_setWidth]
  have hw := w.isLt
  omega

/-- Without a yield the account comes down to whether the machine ran before, and to an
event delivered to an earlier one. -/
theorem contract_iff_of_none (hready : t.state = .ready) (hnone : L.lastYield = none)
    (hreason : t.lastWakeupReason = wakeupFirst) (hid : t.lastEventId = L.owed.setWidth 64) :
    Contract L (dispatchOf t i) ↔ Genuine L := by
  have hawaited : L.awaited = none := by simp [Ledger.awaited, hnone]
  have hdeadline : L.deadline = none := by simp [Ledger.deadline, hnone]
  have howed : L.owed = L.delivered := by simp [Ledger.owed, hawaited]
  rw [howed] at hid
  constructor
  · intro h
    have hfirst : L.dispatched = false := h.first.1 hreason
    have hquiet : t.lastEventId = 0 :=
      h.quiet (by simp [dispatchOf, hreason, wakeupFirst, wakeupEvent])
    exact ⟨by simp [hfirst], by simp [hnone], by simp [hdeadline], by simp [hawaited],
      fun _ => (setWidth_eq_zero_iff _).1 (hid ▸ hquiet)⟩
  · intro h
    have hfirst : L.dispatched = false := by simpa [hnone] using mt h.yielded
    have hquiet : t.lastEventId = 0 := by rw [hid, h.undelivered hawaited]; rfl
    exact
      { first := by simp [dispatchOf, hreason, hfirst]
        call := by simp [dispatchOf, viaCall_iff hready, hreason, hfirst]
        deadline := by simp [dispatchOf, hreason, hdeadline, wakeupFirst, wakeupDeadline]
        event := by simp [dispatchOf, hreason, hawaited, wakeupFirst, wakeupEvent]
        reads := by simp [dispatchOf, hreason, wakeupFirst, wakeupEvent]
        voluntary := by simp [dispatchOf, hreason, hnone, wakeupFirst, wakeupVoluntary]
        quiet := fun _ => hquiet }

/-- After a voluntary yield the contract is always broken: no task ever has reason 3. -/
theorem contract_iff_of_voluntary (hyield : L.lastYield = some .voluntary)
    (hreason : t.lastWakeupReason ≠ wakeupVoluntary) :
    Contract L (dispatchOf t i) ↔ Genuine L :=
  ⟨fun h => absurd (h.voluntary.2 hyield) hreason, fun h => absurd hyield h.notVoluntary⟩

/-- After a wait for a time the account comes down to whether the clock can show that time,
and to an event delivered before. -/
theorem contract_iff_of_timed {n : Nat} (hready : t.state = .ready)
    (hdisp : L.dispatched = true) (hdeadline : L.deadline = some n) (hawaited : L.awaited = none)
    (hvoluntary : L.lastYield ≠ some .voluntary) (hnone : L.lastYield ≠ none)
    (hreason : t.lastWakeupReason = wakeupDeadline)
    (hreached : n < 2 ^ 64 ↔ L.reached = true) (hid : t.lastEventId = L.owed.setWidth 64) :
    Contract L (dispatchOf t i) ↔ Genuine L := by
  have howed : L.owed = L.delivered := by simp [Ledger.owed, hawaited]
  rw [howed] at hid
  constructor
  · intro h
    have hdue : L.reached = true := (h.deadline.1 hreason).2
    have hquiet : t.lastEventId = 0 :=
      h.quiet (by simp [dispatchOf, hreason, wakeupDeadline, wakeupEvent])
    refine ⟨fun _ => hnone, hvoluntary, ?_, by simp [hawaited],
      fun _ => (setWidth_eq_zero_iff _).1 (hid ▸ hquiet)⟩
    intro m hm
    obtain rfl : n = m := by simpa [hdeadline] using hm
    exact hreached.2 hdue
  · intro h
    have hdue : L.reached = true := hreached.1 (h.onClock n hdeadline)
    have hquiet : t.lastEventId = 0 := by rw [hid, h.undelivered hawaited]; rfl
    exact
      { first := by simp [dispatchOf, hreason, hdisp, wakeupFirst, wakeupDeadline]
        call := by
          simp [dispatchOf, viaCall_iff hready, hreason, hdisp, wakeupFirst, wakeupDeadline]
        deadline := by simp [dispatchOf, hreason, hdeadline, hdue]
        event := by simp [dispatchOf, hreason, hawaited, wakeupDeadline, wakeupEvent]
        reads := by simp [dispatchOf, hreason, wakeupDeadline, wakeupEvent]
        voluntary := by simp [dispatchOf, hreason, hvoluntary, wakeupDeadline, wakeupVoluntary]
        quiet := fun _ => hquiet }

/-- After a wait for an event the account comes down to the event that ended it. -/
theorem contract_iff_of_eventWait {w : Word} {k : Waker} (hready : t.state = .ready)
    (hdisp : L.dispatched = true) (hyield : L.lastYield = some (.eventWait w))
    (hreason : t.lastWakeupReason = wakeupEvent) (hwaker : L.waker = some k)
    (hid : t.lastEventId = L.owed.setWidth 64) (hpayload : t.lastEventPayload = k.post.payload) :
    Contract L (dispatchOf t i) ↔ Genuine L := by
  have hawaited : L.awaited = some w := by simp [Ledger.awaited, hyield]
  have hdeadline : L.deadline = none := by simp [Ledger.deadline, hyield, Yield.deadline]
  have howed : L.owed = k.post.id.setWidth 8 := by
    simp [Ledger.owed, hawaited, hwaker, Post.event]
  rw [howed] at hid
  constructor
  · intro h
    obtain ⟨w', k', hw', hk', hafter, hsame⟩ := h.event.1 hreason
    obtain rfl : w = w' := by simpa [hawaited] using hw'
    obtain rfl : k = k' := by simpa [hwaker] using hk'
    obtain ⟨k', hk', hread, -⟩ := h.reads hreason
    obtain rfl : k = k' := by simpa [hwaker] using hk'
    have hbyte : w.toNat < 256 := by
      rw [← hsame, ← setWidth_setWidth_eq_iff, ← hid]
      exact hread
    refine ⟨by simp [hyield], by simp [hyield], by simp [hdeadline], ?_, by simp [hawaited]⟩
    intro v hv
    obtain rfl : w = v := by simpa [hawaited] using hv
    exact ⟨hbyte, k, hwaker, hafter, hsame⟩
  · intro h
    obtain ⟨hbyte, k', hk', hafter, hsame⟩ := h.ownEvent w hawaited
    obtain rfl : k = k' := by simpa [hwaker] using hk'
    have hread : t.lastEventId = k.post.id := by
      rw [hid, setWidth_setWidth_eq_iff, hsame]
      exact hbyte
    exact
      { first := by simp [dispatchOf, hreason, hdisp, wakeupFirst, wakeupEvent]
        call := by simp [dispatchOf, viaCall_iff hready, hreason, hdisp, wakeupFirst, wakeupEvent]
        deadline := by simp [dispatchOf, hreason, hdeadline, wakeupDeadline, wakeupEvent]
        event := ⟨fun _ => ⟨w, k, hawaited, hwaker, hafter, hsame⟩, fun _ => hreason⟩
        reads := fun _ => ⟨k, hwaker, hread, hpayload⟩
        voluntary := by simp [dispatchOf, hreason, hyield, wakeupEvent, wakeupVoluntary]
        quiet := fun hne => absurd hreason hne }

/-- **At a dispatch the contract is kept exactly on a genuine past.** -/
theorem Tracked.contract_iff {queue : List Event} (h : Tracked queue t L)
    (hready : t.state = .ready) : Contract L (dispatchOf t i) ↔ Genuine L := by
  have hagrees := h.agrees
  simp only [Agrees, hready] at hagrees
  have hdisp : L.lastYield ≠ none → L.dispatched = true := by
    intro hne
    by_contra hfalse
    exact hne (h.fresh (by simpa using hfalse))
  have timed : ∀ n, L.deadline = some n → L.awaited = none → L.lastYield ≠ some .voluntary →
      L.lastYield ≠ none → (Contract L (dispatchOf t i) ↔ Genuine L) := by
    intro n hn hawaited hvoluntary hne
    obtain ⟨hreason, hreached⟩ := hagrees.deadline n hn
    exact contract_iff_of_timed hready (hdisp hne) hn hawaited hvoluntary hne hreason
      ⟨hreached, fun hr => h.onClock hr n hn⟩ hagrees.id
  cases hyield : L.lastYield with
  | none => exact contract_iff_of_none hready hyield (hagrees.first hyield) hagrees.id
  | some y =>
    have hne : L.lastYield ≠ none := by simp [hyield]
    cases y with
    | voluntary => exact contract_iff_of_voluntary hyield h.reason
    | eventWait w =>
      obtain ⟨hreason, k, hwaker, hpayload⟩ := hagrees.event w (by simp [Ledger.awaited, hyield])
      exact contract_iff_of_eventWait hready (hdisp hne) hyield hreason hwaker hagrees.id hpayload
    | wait deadline =>
      exact timed deadline.toNat (by simp [Ledger.deadline, hyield, Yield.deadline])
        (by simp [Ledger.awaited, hyield]) (by simp [hyield]) hne
    | periodic since period =>
      exact timed (since.toNat + period / 1000000)
        (by simp [Ledger.deadline, hyield, Yield.deadline])
        (by simp [Ledger.awaited, hyield]) (by simp [hyield]) hne

end AtDispatch

/-! ## Through a run -/

/-- Every task of the scheduler agrees with its account. -/
def Kept (s : Scheduler) (past : List Happening) : Prop :=
  ∀ i t, s.tasks[i]? = some t → Tracked s.eventQueue t (ledger i past)

/-- Every account has noted the reading. -/
def Clocked (now : Word) (past : List Happening) : Prop :=
  ∀ i n, (ledger i past).deadline = some n → n ≤ now.toNat → (ledger i past).reached = true

theorem ledger_append (i : Nat) (past more : List Happening) :
    ledger i (past ++ more) = more.foldl (Ledger.note i) (ledger i past) := by
  simp [ledger]

/-- Before the loop no account holds anything, and no task has run. -/
theorem kept_start (m : Manifest) : Kept (start m) [] := by
  intro i t ht
  simp only [start, List.getElem?_map, Option.map_eq_some_iff] at ht
  obtain ⟨cfg, -, rfl⟩ := ht
  exact ⟨fun _ => rfl, by simp [ledger], by simp [wakeupFirst, wakeupVoluntary], rfl, rfl⟩

theorem Kept.clock {s : Scheduler} {past : List Happening} (h : Kept s past) (now : Word) :
    Kept s (past ++ [.clock now]) := by
  intro i t ht
  rw [ledger_append]
  exact (h i t ht).clock i now

theorem clocked_clock (past : List Happening) (now : Word) :
    Clocked now (past ++ [.clock now]) := by
  intro i n hn hle
  rw [ledger_append] at hn ⊢
  have hn' : (ledger i past).deadline = some n := hn
  simp [Ledger.note, hn', isDue, hle]

theorem Clocked.postedAll {now : Word} {past : List Happening} (h : Clocked now past)
    (posts : List Post) : Clocked now (past ++ posts.map .posted) := by
  intro i n hn hle
  rw [ledger_append] at hn ⊢
  have hsame := SameButPosts.postedAll (ledger i past) i posts
  rw [hsame.deadline] at hn
  rw [hsame.reached]
  exact h i n hn hle

/-- A reload changes nothing of a task but its settings. -/
theorem getElem?_reloadTask {cfg : TaskConfig} {tasks : List Task} {i : Nat} {t' : Task}
    (h : (reloadTask cfg tasks)[i]? = some t') :
    ∃ t cfg', tasks[i]? = some t ∧ t' = { t with cfg := cfg' } := by
  induction tasks generalizing i with
  | nil => simp [reloadTask] at h
  | cons u tasks ih =>
    unfold reloadTask at h
    split at h
    · cases i with
      | zero =>
        obtain rfl := by simpa using h
        exact ⟨u, _, rfl, rfl⟩
      | succ i => exact ⟨t', t'.cfg, by simpa using h, rfl⟩
    · cases i with
      | zero =>
        obtain rfl : u = t' := by simpa using h
        exact ⟨u, u.cfg, rfl, rfl⟩
      | succ i => simpa using ih (by simpa using h)

theorem getElem?_reloadTasks {cfgs : List TaskConfig} {tasks : List Task} {i : Nat} {t' : Task}
    (h : (cfgs.foldl (fun tasks cfg => reloadTask cfg tasks) tasks)[i]? = some t') :
    ∃ t cfg', tasks[i]? = some t ∧ t' = { t with cfg := cfg' } := by
  induction cfgs generalizing tasks with
  | nil => exact ⟨t', t'.cfg, h, rfl⟩
  | cons cfg cfgs ih =>
    obtain ⟨u, cfg', hu, rfl⟩ := ih h
    obtain ⟨t, cfg'', ht, rfl⟩ := getElem?_reloadTask hu
    exact ⟨t, cfg', ht, rfl⟩

/-- The signals change nothing of a task but its settings. -/
theorem getElem?_signals {s : Scheduler} {r : Reading} {i : Nat} {t' : Task}
    (h : (takeReload (takeShutdown s r) r).tasks[i]? = some t') :
    ∃ t cfg', s.tasks[i]? = some t ∧ t' = { t with cfg := cfg' } := by
  have hshutdown : (takeShutdown s r).tasks = s.tasks := by
    unfold takeShutdown
    split <;> rfl
  unfold takeReload at h
  split at h
  · cases hm : r.incoming with
    | none =>
      simp only [hm, reloadManifest, hshutdown] at h
      exact ⟨t', t'.cfg, h, rfl⟩
    | some m =>
      simp only [hm, reloadManifest, hshutdown] at h
      exact getElem?_reloadTasks h
  · rw [hshutdown] at h
    exact ⟨t', t'.cfg, h, rfl⟩

/-- The signals push what they post. -/
theorem eventQueue_signals (s : Scheduler) (r : Reading) :
    (takeReload (takeShutdown s r) r).eventQueue =
      (signalPosts s r).foldl postEvent s.eventQueue := by
  have hshutdown : (takeShutdown s r).eventQueue =
      (if shutsDown s r then [⟨s.shutdownEventId.setWidth 64, 0⟩] else []).foldl postEvent
        s.eventQueue := by
    unfold takeShutdown
    split <;> simp [postEvent, Post.event]
  have hid : (takeShutdown s r).reloadEventId = s.reloadEventId := by
    unfold takeShutdown
    split <;> rfl
  have hreload : ∀ m, (reloadManifest (takeShutdown s r) m).eventQueue =
      (takeShutdown s r).eventQueue ∧
        (reloadManifest (takeShutdown s r) m).reloadEventId = s.reloadEventId := by
    intro m
    cases m <;> exact ⟨rfl, hid⟩
  rw [signalPosts, List.foldl_append, ← hshutdown]
  unfold takeReload
  split
  · simp [(hreload r.incoming).1, (hreload r.incoming).2, postEvent, Post.event]
  · rfl

theorem Kept.signals {s : Scheduler} {past : List Happening} (h : Kept s past) (r : Reading) :
    Kept (takeReload (takeShutdown s r) r)
      (past ++ (accepted s.eventQueue (signalPosts s r)).map .posted) := by
  intro i t' ht'
  obtain ⟨t, cfg, ht, rfl⟩ := getElem?_signals ht'
  rw [ledger_append, eventQueue_signals, foldl_postEvent]
  exact ((h i t ht).postedAll i _).withCfg cfg

/-- Waking the tasks event by event is waking each of them by all the events. -/
theorem wakeTasks_eq (events : List Event) (tasks : List Task) :
    wakeTasks events tasks = tasks.map fun t => events.foldl (fun t e => wakeTask e t) t := by
  induction events generalizing tasks with
  | nil => simp [wakeTasks]
  | cons e events ih =>
    have hrest := ih (tasks.map (wakeTask e))
    rw [List.map_map] at hrest
    exact hrest

theorem Kept.awaken {s : Scheduler} {past : List Happening} {now : Word} (h : Kept s past)
    (hclock : Clocked now past) : Kept (awaken s now) past := by
  intro i t' ht'
  simp only [KeleusmaTasks.awaken, wakeTasks_eq, List.getElem?_map, Option.map_eq_some_iff] at ht'
  obtain ⟨-, ⟨-, ⟨t, ht, rfl⟩, rfl⟩, rfl⟩ := ht'
  exact (((h i t ht).refresh (hclock i)).wake).promote

theorem foldl_moreUrgent_mem (best : Task × Nat) (rest : List (Task × Nat)) :
    rest.foldl moreUrgent best ∈ best :: rest := by
  induction rest generalizing best with
  | nil => simp
  | cons t rest ih =>
    have hmem := ih (moreUrgent best t)
    rcases List.mem_cons.1 hmem with hbest | hrest
    · rw [List.foldl_cons, hbest]
      unfold moreUrgent
      split <;> simp
    · exact List.mem_cons_of_mem _ (List.mem_cons_of_mem _ hrest)

/-- The candidate is a runnable task, at its index. -/
theorem candidate_runnable {tasks : List Task} {t : Task} {i : Nat}
    (h : candidate tasks = some (t, i)) : tasks[i]? = some t ∧ runnable t = true := by
  have hmem : (t, i) ∈ tasks.zipIdx.filter fun t => runnable t.1 := by
    unfold candidate at h
    split at h
    · cases h
    · next best rest hlist =>
      rw [hlist, ← Option.some.inj h]
      exact foldl_moreUrgent_mem best rest
  rw [List.mem_filter] at hmem
  exact ⟨List.mem_zipIdx_iff_getElem?.1 hmem.1, hmem.2⟩

/-- The candidate is ready. -/
theorem candidate_spec {tasks : List Task} {t : Task} {i : Nat}
    (h : candidate tasks = some (t, i)) : tasks[i]? = some t ∧ t.state = .ready := by
  obtain ⟨ht, hrun⟩ := candidate_runnable h
  simp only [runnable, Bool.and_eq_true, beq_iff_eq] at hrun
  exact ⟨ht, hrun.1⟩

theorem Kept.dispatch {s : Scheduler} {past : List Happening} {t : Task} {j : Nat}
    (h : Kept s past) (hqueue : s.eventQueue = []) (ht : s.tasks[j]? = some t)
    (hready : t.state = .ready) (r : Reading) :
    Kept { s with
        tasks := s.tasks.set j (dispatchOne t r.nowMs r.turn)
        eventQueue := r.turn.posts.foldl postEvent s.eventQueue }
      (past ++ turnHappenings s.eventQueue t j r) := by
  intro i u hu
  rw [ledger_append, hqueue]
  have hlen : j < s.tasks.length := (List.getElem?_eq_some_iff.1 ht).1
  by_cases hij : i = j
  · subst hij
    obtain rfl : dispatchOne t r.nowMs r.turn = u := by
      simpa [List.getElem?_set_self hlen] using hu
    have htracked := h i t ht
    rw [hqueue] at htracked
    exact htracked.turn hready r
  · rw [List.getElem?_set_ne (Ne.symm hij)] at hu
    have htracked := h i u hu
    rw [hqueue] at htracked
    exact htracked.otherTurn hij t r

/-! ## Along a history -/

section History

variable {P Q : List Happening → Dispatch → Prop} {past : List Happening}

theorem atDispatches_append (a b : List Happening) :
    AtDispatches P past (a ++ b) ↔ AtDispatches P past a ∧ AtDispatches P (past ++ a) b := by
  induction a generalizing past with
  | nil => simp [AtDispatches]
  | cons x a ih => simp [AtDispatches, ih, and_assoc]

/-- A stretch without a dispatch asks nothing. -/
theorem atDispatches_of_none {a : List Happening} (h : ∀ d, Happening.dispatched d ∉ a) :
    AtDispatches P past a := by
  induction a generalizing past with
  | nil => trivial
  | cons x a ih =>
    refine ⟨?_, ih fun d hd => h d (List.mem_cons_of_mem _ hd)⟩
    cases x with
    | dispatched d => exact absurd (List.mem_cons_self ..) (h d)
    | clock now => trivial
    | posted p => trivial
    | yielded task y => trivial
    | restarted task => trivial

/-- What agrees at every dispatch agrees along the history. -/
theorem AtDispatches.congr {a : List Happening}
    (h : AtDispatches (fun past d => P past d ↔ Q past d) past a) :
    AtDispatches P past a ↔ AtDispatches Q past a := by
  induction a generalizing past with
  | nil => rfl
  | cons x a ih =>
    refine and_congr ?_ (ih h.2)
    cases x with
    | dispatched d => exact h.1
    | clock now => rfl
    | posted p => rfl
    | yielded task y => rfl
    | restarted task => rfl

end History

/-- At this dispatch the contract and the condition agree. -/
def Settled (past : List Happening) (d : Dispatch) : Prop :=
  Contract (ledger d.task past) d ↔ Genuine (ledger d.task past)

/-- A turn is one dispatch and what follows it. -/
theorem settled_turn {queue : List Event} {t : Task} {i : Nat} {past : List Happening}
    (h : Tracked queue t (ledger i past)) (hready : t.state = .ready) (r : Reading) :
    AtDispatches Settled past (turnHappenings queue t i r) := by
  refine ⟨h.contract_iff hready, atDispatches_of_none ?_⟩
  intro d hd
  rcases List.mem_append.1 hd with hd | hd
  · simp at hd
  · split at hd <;> simp at hd

/-- One iteration keeps every task agreed with its account, and settles its dispatch. -/
theorem Kept.iteration {s : Scheduler} {past : List Happening} (h : Kept s past) (r : Reading) :
    AtDispatches Settled past (happenings s r) ∧
      ∀ s', iteration s r = .ok s' → Kept s' (past ++ happenings s r) := by
  have hclock := clocked_clock past r.nowMs
  have hsignals := (h.clock r.nowMs).signals r
  have hclocked := hclock.postedAll (accepted s.eventQueue (signalPosts s r))
  -- what the signals show is no dispatch
  have hquiet : AtDispatches Settled past
      (.clock r.nowMs :: (accepted s.eventQueue (signalPosts s r)).map .posted) :=
    atDispatches_of_none (by simp)
  have hsplit : ∀ rest : List Happening,
      AtDispatches Settled
        (past ++ [.clock r.nowMs] ++ (accepted s.eventQueue (signalPosts s r)).map .posted) rest →
      AtDispatches Settled past
        (.clock r.nowMs :: ((accepted s.eventQueue (signalPosts s r)).map .posted ++ rest)) := by
    intro rest hrest
    rw [← List.cons_append, atDispatches_append]
    exact ⟨hquiet, by simpa using hrest⟩
  unfold happenings KeleusmaTasks.iteration
  simp only
  split
  · refine ⟨hsplit [] trivial, ?_⟩
    intro s' hs'
    cases hs'
  have hawake := hsignals.awaken hclocked
  cases hcandidate : candidate
      (KeleusmaTasks.awaken (takeReload (takeShutdown s r) r) r.nowMs).tasks with
  | none =>
    refine ⟨hsplit [] trivial, ?_⟩
    intro s' hs'
    simp only at hs'
    split at hs'
    · cases hs'
    · obtain rfl := Except.ok.inj hs'
      simpa using hawake
  | some pair =>
    obtain ⟨t, i⟩ := pair
    obtain ⟨ht, hready⟩ := candidate_spec hcandidate
    refine ⟨hsplit _ (settled_turn (hawake i t ht) hready r), ?_⟩
    intro s' hs'
    obtain rfl := Except.ok.inj hs'
    simpa using hawake.dispatch rfl ht hready r

/-- Along any run every dispatch is settled. -/
theorem settled_trace {s : Scheduler} {past : List Happening} (h : Kept s past)
    (readings : List Reading) : AtDispatches Settled past (trace s readings) := by
  induction readings generalizing s past with
  | nil => trivial
  | cons r readings ih =>
    obtain ⟨hsettled, hnext⟩ := h.iteration r
    rw [trace, atDispatches_append]
    refine ⟨hsettled, ?_⟩
    cases hs : iteration s r with
    | error outcome => trivial
    | ok s' => exact ih (hnext s' hs)

/-- **The wake-up contract is kept in a run exactly when every dispatch finds a genuine
past**: in every run of the loop, over any tasks, yields, posts and clock readings, every
reason, call and event cell is as the contract says if and only if no task is dispatched
after a voluntary yield, after a reset before its first yield, for an event that has the
awaited id only in its low byte or was posted before the yield, past a deadline the clock
cannot show, or with an event id left over from an earlier wake-up. -/
theorem honoured_iff_undisturbed (m : Manifest) (readings : List Reading) :
    Honoured (trace (start m) readings) ↔ Undisturbed (trace (start m) readings) :=
  (settled_trace (kept_start m) readings).congr

/-! ## A task restarted by its own yield -/

/-- A manifest with one task. -/
def oneTask : Manifest where
  shutdownGrace := 5000000000
  tasks := [⟨"worker", none, .onError, 5, 60000000000, 0⟩]
  events := []

/-- An iteration at `now` in which the dispatched machine yields `(2, 0)`. -/
def yieldsAt (now : Word) : Reading where
  nowMs := now
  turn := ⟨[], .yielded (some (reasonYield, 0)), 0, true, true⟩

/-- A voluntary yield leaves reason 0 where reason 3 is due, so that the next dispatch calls
the machine, and so restarts it, instead of resuming it. -/
theorem oneTask_not_honoured : ¬ Honoured (trace (start oneTask) [yieldsAt 0, yieldsAt 1]) := by
  rintro ⟨-, -, -, -, hsecond, -⟩
  exact absurd (hsecond.call.1 rfl) (by decide)

end KeleusmaTasks
