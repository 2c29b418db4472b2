import Keleusma.Scheduler.Ledger

/-!
# The scheduler's fields and the ledger

The scheduler's fields are tied to the ledger by one invariant for each task (`Tracked`):
what its state, its reason and its event cells are, given the yield it made last and what
has happened since. Every phase of an iteration keeps it, and so does a turn, of the task
that is dispatched and of the others.
-/

namespace KeleusmaTasks

/-! ## The invariant -/

/-- What a ready task carries into its dispatch, by the yield its account has last. -/
structure Carries (t : Task) (L : Ledger) : Prop where
  id : t.lastEventId = L.owed.setWidth 64
  first : L.lastYield = none → t.lastWakeupReason = wakeupFirst
  deadline : ∀ n, L.deadline = some n →
    t.lastWakeupReason = wakeupDeadline ∧ (n < 2 ^ 64 → L.reached = true)
  event : ∀ w, L.awaited = some w →
    t.lastWakeupReason = wakeupEvent ∧ ∃ k, L.waker = some k ∧ t.lastEventPayload = k.post.payload

/-- What the fields of a task say in each state. -/
def Agrees (queue : List Event) (t : Task) (L : Ledger) : Prop :=
  match t.state with
  | .notStarted => t.lastEventId = L.delivered.setWidth 64 ∧ L.lastYield = none
  | .ready => Carries t L
  | .sleepingUntil deadline =>
    t.lastEventId = L.delivered.setWidth 64 ∧
      ∃ n, L.deadline = some n ∧ deadline = BitVec.ofNat 64 n
  | .waitingForEvent id =>
    t.lastEventId = L.delivered.setWidth 64 ∧
      ∃ w, L.awaited = some w ∧ id = w.setWidth 8 ∧
        L.waker.map (·.post.event) = queue.find? fun e => id = e.id
  | .finished => True

/-- The fields of a task agree with its account. -/
structure Tracked (queue : List Event) (t : Task) (L : Ledger) : Prop where
  fresh : L.dispatched = false → L.lastYield = none
  onClock : L.reached = true → ∀ n, L.deadline = some n → n < 2 ^ 64
  reason : t.lastWakeupReason ≠ wakeupVoluntary
  agrees : Agrees queue t L

/-! ## Through the phases of an iteration -/

section Phases

variable {queue : List Event} {t : Task} {L : Ledger}

theorem Ledger.awaited_of_deadline {n : Nat} (h : L.deadline = some n) : L.awaited = none := by
  unfold Ledger.deadline at h
  unfold Ledger.awaited
  split
  · next w hyield => simp [hyield, Yield.deadline] at h
  · rfl

theorem Ledger.owed_of_awaited_none (h : L.awaited = none) : L.owed = L.delivered := by
  simp [Ledger.owed, h]

theorem Ledger.deadline_of_awaited {w : Word} (h : L.awaited = some w) : L.deadline = none := by
  unfold Ledger.awaited at h
  split at h
  · next w' hyield => simp [Ledger.deadline, hyield, Yield.deadline]
  · cases h

/-- Reading the clock changes no field of a task. -/
theorem Tracked.clock (h : Tracked queue t L) (i : Nat) (now : Word) :
    Tracked queue t (L.note i (.clock now)) := by
  refine ⟨h.fresh, ?_, h.reason, ?_⟩
  · intro hreached n hn
    have hn' : L.deadline = some n := hn
    simp only [Ledger.note, Bool.or_eq_true, hn', isDue, decide_eq_true_eq] at hreached
    rcases hreached with hreached | hdue
    · exact h.onClock hreached n hn'
    · exact lt_of_le_of_lt hdue now.isLt
  · have hagrees := h.agrees
    unfold Agrees at hagrees ⊢
    cases hstate : t.state with
    | ready =>
      simp only [hstate] at hagrees ⊢
      refine ⟨hagrees.id, hagrees.first, ?_, hagrees.event⟩
      intro n hn
      obtain ⟨hreason, hreached⟩ := hagrees.deadline n hn
      exact ⟨hreason, fun hlt => by simp [Ledger.note, hreached hlt]⟩
    | notStarted =>
      simp only [hstate] at hagrees ⊢
      exact hagrees
    | sleepingUntil deadline =>
      simp only [hstate] at hagrees ⊢
      exact hagrees
    | waitingForEvent id =>
      simp only [hstate] at hagrees ⊢
      exact hagrees
    | finished => trivial

theorem answers_iff (w : Word) (p : Post) : answers w p = true ↔ w.setWidth 8 = p.event.id := by
  rw [answers, beq_iff_eq]
  exact eq_comm

/-- A post goes to the end of the queue, and to the account of who waits for it. -/
theorem Tracked.posted (h : Tracked queue t L) (i : Nat) (p : Post) :
    Tracked (queue ++ [p.event]) t (L.note i (.posted p)) := by
  refine ⟨h.fresh, h.onClock, h.reason, ?_⟩
  have hagrees := h.agrees
  unfold Agrees at hagrees ⊢
  cases hstate : t.state with
  | ready =>
    simp only [hstate] at hagrees ⊢
    refine ⟨?_, hagrees.first, hagrees.deadline, ?_⟩
    · -- the waker of a ready task is there already, so a post does not change what it is owed
      have howed : (L.note i (.posted p)).owed = L.owed := by
        cases hawaited : L.awaited with
        | none =>
          have hawaited' : (L.note i (.posted p)).awaited = none := hawaited
          rw [Ledger.owed_of_awaited_none hawaited, Ledger.owed_of_awaited_none hawaited']
          rfl
        | some w =>
          obtain ⟨-, k, hwaker, -⟩ := hagrees.event w hawaited
          have hawaited' : (L.note i (.posted p)).awaited = some w := hawaited
          have hwaker' : (L.note i (.posted p)).waker = some k := by simp [Ledger.note, hwaker]
          simp [Ledger.owed, hawaited, hawaited', hwaker, hwaker']
      rw [howed]
      exact hagrees.id
    · intro w hawaited
      obtain ⟨hreason, k, hwaker, hpayload⟩ := hagrees.event w hawaited
      exact ⟨hreason, k, by simp [Ledger.note, hwaker], hpayload⟩
  | waitingForEvent id =>
    simp only [hstate] at hagrees ⊢
    obtain ⟨hid, w, hawaited, hw, hwaker⟩ := hagrees
    refine ⟨hid, w, hawaited, hw, ?_⟩
    rw [List.find?_append, ← hwaker]
    cases hk : L.waker with
    | some k => simp [Ledger.note, hk]
    | none =>
      by_cases hp : answers w p = true
      · have hsame := (answers_iff w p).1 hp
        simp [Ledger.note, hk, hawaited, postWaker, hp, hw, hsame]
      · have hother := mt (answers_iff w p).2 hp
        simp [Ledger.note, hk, hawaited, postWaker, hp, hw, hother]
  | notStarted =>
    simp only [hstate] at hagrees ⊢
    exact hagrees
  | sleepingUntil deadline =>
    simp only [hstate] at hagrees ⊢
    exact hagrees
  | finished => trivial

/-- Waking the sleepers, once the account has noted the same reading of the clock. -/
theorem Tracked.refresh {now : Word} (h : Tracked queue t L)
    (hclock : ∀ n, L.deadline = some n → n ≤ now.toNat → L.reached = true) :
    Tracked queue (refreshTask now t) L := by
  unfold refreshTask
  split
  · next deadline hstate =>
    split
    · next hdue =>
      have hagrees := h.agrees
      simp only [Agrees, hstate] at hagrees
      obtain ⟨hid, n, hn, rfl⟩ := hagrees
      have hawaited := Ledger.awaited_of_deadline hn
      have hlate : ∀ m, L.deadline = some m → m < 2 ^ 64 → L.reached = true := by
        intro m hm hlt
        obtain rfl : n = m := by simpa [hn] using hm
        refine hclock n hn ?_
        have hle : n % 2 ^ 64 ≤ now.toNat := by simpa using BitVec.le_def.1 hdue
        rwa [Nat.mod_eq_of_lt hlt] at hle
      exact ⟨h.fresh, h.onClock, by simp [wakeupDeadline, wakeupVoluntary],
        { id := by rw [Ledger.owed_of_awaited_none hawaited]; exact hid
          first := fun hnone => by simp [Ledger.deadline, hnone] at hn
          deadline := fun m hm => ⟨rfl, hlate m hm⟩
          event := fun w hw => by simp [hawaited] at hw }⟩
    · exact h
  · exact h

/-- A task no event of the queue is for stays as it is. -/
theorem foldl_wakeTask_of_not_waiting (hstate : ∀ id, t.state ≠ .waitingForEvent id) :
    queue.foldl (fun t e => wakeTask e t) t = t := by
  induction queue with
  | nil => rfl
  | cons e queue ih =>
    have hstay : wakeTask e t = t := by
      unfold wakeTask
      split
      · next id hid => exact absurd hid (hstate id)
      · rfl
    rw [List.foldl_cons, hstay, ih]

/-- A waiting task gets the first event of the queue that it waits for. -/
theorem foldl_wakeTask_of_waiting {id : BitVec 8} (hstate : t.state = .waitingForEvent id) :
    queue.foldl (fun t e => wakeTask e t) t =
      match queue.find? fun e => id = e.id with
      | some e =>
        { t with
          state := .ready
          lastWakeupReason := wakeupEvent
          eventAtomics := ⟨e.id.setWidth 64, e.payload⟩ }
      | none => t := by
  induction queue with
  | nil => rfl
  | cons e queue ih =>
    by_cases he : id = e.id
    · have hwoken : wakeTask e t =
          { t with
            state := .ready
            lastWakeupReason := wakeupEvent
            eventAtomics := ⟨e.id.setWidth 64, e.payload⟩ } := by
        simp [wakeTask, hstate, he]
      rw [List.foldl_cons, hwoken, foldl_wakeTask_of_not_waiting (by simp)]
      simp [he]
    · have hstay : wakeTask e t = t := by simp [wakeTask, hstate, he]
      rw [List.foldl_cons, hstay, ih, List.find?_cons_of_neg (by simpa using he)]

/-- Draining the queue wakes whoever it is for, and leaves it empty. -/
theorem Tracked.wake (h : Tracked queue t L) :
    Tracked [] (queue.foldl (fun t e => wakeTask e t) t) L := by
  by_cases hwaiting : ∃ id, t.state = .waitingForEvent id
  · obtain ⟨id, hstate⟩ := hwaiting
    have hagrees := h.agrees
    simp only [Agrees, hstate] at hagrees
    obtain ⟨hid, w, hawaited, hw, hwaker⟩ := hagrees
    rw [foldl_wakeTask_of_waiting hstate]
    cases hfind : queue.find? fun e => id = e.id with
    | none =>
      refine ⟨h.fresh, h.onClock, h.reason, ?_⟩
      simp only [Agrees, hstate]
      exact ⟨hid, w, hawaited, hw, by simpa [hfind] using hwaker⟩
    | some e =>
      rw [hfind, Option.map_eq_some_iff] at hwaker
      obtain ⟨k, hk, rfl⟩ := hwaker
      exact ⟨h.fresh, h.onClock, by simp [wakeupEvent, wakeupVoluntary],
        { id := by simp [Task.lastEventId, Ledger.owed, hawaited, hk]
          first := fun hnone => by simp [Ledger.awaited, hnone] at hawaited
          deadline := fun m hm => by simp [Ledger.deadline_of_awaited hawaited] at hm
          event := fun _ _ => ⟨rfl, k, hk, rfl⟩ }⟩
  · rw [foldl_wakeTask_of_not_waiting (by simpa using hwaiting)]
    refine ⟨h.fresh, h.onClock, h.reason, ?_⟩
    have hagrees := h.agrees
    unfold Agrees at hagrees ⊢
    cases hstate : t.state with
    | waitingForEvent id => exact absurd ⟨id, hstate⟩ hwaiting
    | ready => simpa only [hstate] using hagrees
    | notStarted =>
      simp only [hstate] at hagrees ⊢
      exact hagrees
    | sleepingUntil deadline =>
      simp only [hstate] at hagrees ⊢
      exact hagrees
    | finished => trivial

/-- A task that never ran becomes ready with reason 0. -/
theorem Tracked.promote (h : Tracked queue t L) : Tracked queue (promoteTask t) L := by
  unfold promoteTask
  split
  · next hstate =>
    split
    · have hagrees := h.agrees
      simp only [Agrees, hstate] at hagrees
      obtain ⟨hid, hnone⟩ := hagrees
      have hawaited : L.awaited = none := by simp [Ledger.awaited, hnone]
      exact ⟨h.fresh, h.onClock, by simp [wakeupFirst, wakeupVoluntary],
        { id := by rw [Ledger.owed_of_awaited_none hawaited]; exact hid
          first := fun _ => rfl
          deadline := fun m hm => by simp [Ledger.deadline, hnone] at hm
          event := fun w hw => by simp [hawaited] at hw }⟩
    · exact h
  · exact h

/-- The restart settings a reload changes are no part of the account. -/
theorem Tracked.withCfg (h : Tracked queue t L) (cfg : TaskConfig) :
    Tracked queue { t with cfg := cfg } L := by
  refine ⟨h.fresh, h.onClock, h.reason, ?_⟩
  have hagrees := h.agrees
  unfold Agrees at hagrees ⊢
  cases hstate : t.state with
  | ready =>
    simp only [hstate] at hagrees ⊢
    exact ⟨hagrees.id, hagrees.first, hagrees.deadline, hagrees.event⟩
  | notStarted =>
    simp only [hstate] at hagrees ⊢
    exact hagrees
  | sleepingUntil deadline =>
    simp only [hstate] at hagrees ⊢
    exact hagrees
  | waitingForEvent id =>
    simp only [hstate] at hagrees ⊢
    exact hagrees
  | finished => trivial

/-! ## Through a dispatch -/

/-- A run of posts. -/
theorem Tracked.postedAll (h : Tracked queue t L) (i : Nat) (posts : List Post) :
    Tracked (queue ++ posts.map Post.event) t
      ((posts.map Happening.posted).foldl (Ledger.note i) L) := by
  induction posts generalizing queue L with
  | nil => simpa using h
  | cons p posts ih => simpa using ih (h.posted i p)

/-- What a run of posts leaves of an account as it was. -/
structure SameButPosts (L L' : Ledger) : Prop where
  dispatched : L'.dispatched = L.dispatched
  lastYield : L'.lastYield = L.lastYield
  reached : L'.reached = L.reached
  delivered : L'.delivered = L.delivered
  waker : ∀ k, L.waker = some k → L'.waker = some k

theorem SameButPosts.postedAll (L : Ledger) (i : Nat) (posts : List Post) :
    SameButPosts L ((posts.map Happening.posted).foldl (Ledger.note i) L) := by
  induction posts generalizing L with
  | nil => exact ⟨rfl, rfl, rfl, rfl, fun _ h => h⟩
  | cons p posts ih =>
    have h := ih (L.note i (.posted p))
    exact ⟨h.dispatched, h.lastYield, h.reached, h.delivered,
      fun k hk => h.waker k (by simp [Ledger.note, hk])⟩

theorem recent_postedAll (L : Ledger) (i : Nat) (posts : List Post) :
    ((posts.map Happening.posted).foldl (Ledger.note i) L).recent = L.recent ++ posts := by
  induction posts generalizing L with
  | nil => simp
  | cons p posts ih =>
    rw [List.map_cons, List.foldl_cons, ih]
    simp [Ledger.note]

theorem SameButPosts.awaited {L' : Ledger} (h : SameButPosts L L') : L'.awaited = L.awaited := by
  simp only [Ledger.awaited, h.lastYield]

theorem SameButPosts.deadline {L' : Ledger} (h : SameButPosts L L') :
    L'.deadline = L.deadline := by
  simp only [Ledger.deadline, h.lastYield]

/-- A task leaves a failed or finished dispatch for good, or with a new machine and reason 0. -/
theorem onTaskExit_cases (t : Task) (wasError : Bool) (turn : Turn) :
    ((onTaskExit t wasError turn).state = .finished ∧ (onTaskExit t wasError turn).vm = t.vm ∧
      (onTaskExit t wasError turn).lastWakeupReason = t.lastWakeupReason) ∨
    ((onTaskExit t wasError turn).state = .ready ∧ (onTaskExit t wasError turn).vm = t.vm + 1 ∧
      (onTaskExit t wasError turn).lastWakeupReason = wakeupFirst ∧
      (onTaskExit t wasError turn).lastEventId = t.lastEventId) := by
  unfold onTaskExit
  split
  · exact .inl ⟨rfl, rfl, rfl⟩
  simp only
  split
  · exact .inl ⟨rfl, rfl, rfl⟩
  split
  · exact .inl ⟨rfl, rfl, rfl⟩
  split
  · exact .inl ⟨rfl, rfl, rfl⟩
  · exact .inr ⟨rfl, rfl, rfl, rfl⟩

/-- The account after the dispatched task has yielded. -/
def Ledger.yielding (L : Ledger) (y : Yield) : Ledger :=
  { L with lastYield := some y, reached := false, waker := ownWaker L.recent y }

/-- A `Periodic` yield sleeps until the clock shows the end of the period. -/
theorem periodic_deadline (cfg : TaskConfig) (now : Word) :
    now + (cfg.period.map Duration.asMillis).getD 0 =
      BitVec.ofNat 64 (now.toNat + cfg.period.getD 0 / 1000000) := by
  cases cfg.period with
  | none => simp
  | some period => simp [Duration.asMillis, BitVec.ofNat_add]

/-- The events on the queue a waiting task can be woken by are the posts that answer it. -/
theorem find?_answers (w : Word) (posts : List Post) :
    (posts.map Post.event).find? (fun e => w.setWidth 8 = e.id) =
      (posts.find? (answers w)).map Post.event := by
  have hsame : (fun e : Event => decide (w.setWidth 8 = e.id)) ∘ Post.event = answers w := by
    funext p
    rw [Bool.eq_iff_iff, answers_iff]
    simp
  rw [List.find?_map, hsame]

/-- A dispatch that ends in a pair of words. -/
theorem Tracked.yield (hreason : t.lastWakeupReason ≠ wakeupVoluntary)
    (hdispatched : L.dispatched = true)
    (honClock : L.reached = true → ∀ n, L.deadline = some n → n < 2 ^ 64)
    (hid : t.lastEventId = L.delivered.setWidth 64) (now reason payload : Word) :
    Tracked (L.recent.map Post.event) { t with state := yieldState t.cfg now reason payload }
      ((yieldOf t now (.yielded (some (reason, payload)))).elim L L.yielding) := by
  have fresh : ∀ L' : Ledger, L'.dispatched = true → L'.dispatched = false → L'.lastYield = none :=
    fun L' htrue hfalse => by simp [htrue] at hfalse
  unfold yieldState yieldOf
  simp only
  split
  · exact ⟨fresh _ hdispatched, by simp [Ledger.yielding], hreason,
      hid, payload.toNat, rfl, by simp⟩
  split
  · refine ⟨fresh _ hdispatched, by simp [Ledger.yielding], hreason, hid, payload, rfl, rfl, ?_⟩
    rw [find?_answers]
    simp [Ledger.yielding, ownWaker, Function.comp_def]
  split
  · exact ⟨fresh _ hdispatched, by simp [Ledger.yielding], hreason,
      { id := hid
        first := by simp [Ledger.yielding]
        deadline := by simp [Ledger.yielding, Ledger.deadline, Yield.deadline]
        event := by simp [Ledger.yielding, Ledger.awaited] }⟩
  split
  · exact ⟨fresh _ hdispatched, by simp [Ledger.yielding], hreason,
      hid, _, rfl, periodic_deadline _ _⟩
  · exact ⟨fresh _ hdispatched, honClock, hreason, trivial⟩

/-- The account of a task that is being dispatched. -/
def Ledger.dispatching (L : Ledger) : Ledger :=
  { L with dispatched := true, recent := [], delivered := L.owed }

/-- A machine that comes back from a reset is owed what it was owed before. -/
theorem Carries.again {L' : Ledger} (h : Carries t L) (hsame : SameButPosts L.dispatching L') :
    Carries t L' := by
  have hawaited : L'.awaited = L.awaited := hsame.awaited
  have hdeadline : L'.deadline = L.deadline := hsame.deadline
  have howed : L'.owed = L.owed := by
    cases hw : L.awaited with
    | none =>
      rw [Ledger.owed_of_awaited_none (hawaited.trans hw)]
      exact hsame.delivered
    | some w =>
      obtain ⟨-, k, hk, -⟩ := h.event w hw
      have hk' : L'.waker = some k := hsame.waker k hk
      simp [Ledger.owed, hawaited, hw, hk, hk']
  refine ⟨by rw [howed]; exact h.id, ?_, ?_, ?_⟩
  · intro hnone
    exact h.first (hsame.lastYield ▸ hnone)
  · intro n hn
    obtain ⟨hreason, hreached⟩ := h.deadline n (hdeadline ▸ hn)
    exact ⟨hreason, fun hlt => hsame.reached.trans (hreached hlt)⟩
  · intro w hw
    obtain ⟨hreason, k, hk, hpayload⟩ := h.event w (hawaited ▸ hw)
    exact ⟨hreason, k, hsame.waker k hk, hpayload⟩

/-- A task that failed or finished, after its exit. -/
theorem Tracked.exit {i : Nat} (hdispatched : L.dispatched = true)
    (honClock : L.reached = true → ∀ n, L.deadline = some n → n < 2 ^ 64)
    (hreason : t.lastWakeupReason ≠ wakeupVoluntary)
    (hid : t.lastEventId = L.delivered.setWidth 64) (wasError : Bool) (turn : Turn) :
    Tracked queue (onTaskExit t wasError turn)
      ((if (onTaskExit t wasError turn).vm = t.vm then [] else [.restarted i]).foldl
        (Ledger.note i) L) := by
  rcases onTaskExit_cases t wasError turn with
    ⟨hstate, hvm, hsame⟩ | ⟨hstate, hvm, hfirst, hsame⟩
  · rw [if_pos hvm]
    refine ⟨fun hfalse => by simp [hdispatched] at hfalse, honClock, hsame ▸ hreason, ?_⟩
    simp [Agrees, hstate]
  · rw [if_neg (by omega)]
    simp only [List.foldl_cons, List.foldl_nil, Ledger.note, if_pos]
    refine ⟨fun _ => rfl, by simp, by simp [hfirst, wakeupFirst, wakeupVoluntary], ?_⟩
    simp only [Agrees, hstate]
    exact
      { id := by rw [hsame, hid]; rfl
        first := fun _ => hfirst
        deadline := by simp [Ledger.deadline]
        event := by simp [Ledger.awaited] }

/-- What is left on the queue after a turn is what it posted and there was room for. -/
theorem foldl_postEvent (queue : List Event) (posts : List Post) :
    posts.foldl postEvent queue = queue ++ (accepted queue posts).map Post.event := by
  induction posts generalizing queue with
  | nil => simp [accepted]
  | cons p posts ih =>
    rw [List.foldl_cons, ih, postEvent, push]
    split
    · next hroom =>
      have hmore : maxEventQueue - queue.length =
          maxEventQueue - (queue ++ [p.event]).length + 1 := by
        rw [List.length_append, List.length_singleton]
        omega
      simp [accepted, hmore]
    · next hfull =>
      have hnone : maxEventQueue - queue.length = 0 := by omega
      simp [accepted, hnone]

theorem foldl_yielded (L : Ledger) (i : Nat) (y : Option Yield) :
    (y.toList.map (Happening.yielded i)).foldl (Ledger.note i) L = y.elim L L.yielding := by
  cases y with
  | none => rfl
  | some y => simp [Ledger.note, Ledger.yielding]

/-- The task that was dispatched, after its turn. -/
theorem Tracked.turn {i : Nat} (h : Tracked [] t L) (hready : t.state = .ready) (r : Reading) :
    Tracked (r.turn.posts.foldl postEvent []) (dispatchOne t r.nowMs r.turn)
      ((turnHappenings [] t i r).foldl (Ledger.note i) L) := by
  have hcarries := h.agrees
  simp only [Agrees, hready] at hcarries
  have hstart : L.note i (.dispatched (dispatchOf t i)) = L.dispatching := by
    simp [Ledger.note, dispatchOf, Ledger.dispatching]
  have hsame := SameButPosts.postedAll L.dispatching i (accepted [] r.turn.posts)
  have hrecent := recent_postedAll L.dispatching i (accepted [] r.turn.posts)
  rw [foldl_postEvent, List.nil_append, turnHappenings, List.foldl_cons, List.foldl_append,
    List.foldl_append]
  change Tracked _ _ (List.foldl _ (List.foldl _ (List.foldl _
    (L.note i (.dispatched (dispatchOf t i))) _) _) _)
  rw [hstart]
  -- the account once the machine has made its posts, and what is known of it
  generalize (List.map Happening.posted (accepted [] r.turn.posts)).foldl (Ledger.note i)
    L.dispatching = L' at hsame hrecent ⊢
  have hposts : accepted [] r.turn.posts = L'.recent := by rw [hrecent]; rfl
  have hdispatched : L'.dispatched = true := hsame.dispatched
  have honClock : L'.reached = true → ∀ n, L'.deadline = some n → n < 2 ^ 64 := by
    rw [hsame.deadline, hsame.reached]
    exact h.onClock
  have hid : t.lastEventId = L'.delivered.setWidth 64 := by
    rw [hsame.delivered]
    exact hcarries.id
  rw [hposts]
  unfold dispatchOne
  cases r.turn.outcome with
  | yielded pair =>
    cases pair with
    | none =>
      simp only [yieldOf, Option.toList_none, List.map_nil, List.foldl_nil, if_true]
      exact ⟨fun hfalse => by simp [hdispatched] at hfalse, honClock, h.reason, trivial⟩
    | some pair =>
      obtain ⟨reason, payload⟩ := pair
      simp only [if_true, List.foldl_nil, foldl_yielded]
      exact Tracked.yield h.reason hdispatched honClock hid r.nowMs reason payload
  | reset =>
    simp only [yieldOf, Option.toList_none, List.map_nil, List.foldl_nil, if_true]
    refine ⟨fun hfalse => by simp [hdispatched] at hfalse, honClock, h.reason, ?_⟩
    obtain ⟨hid, hfirst, hdeadline, hevent⟩ := hcarries.again hsame
    exact ⟨hid, hfirst, hdeadline, hevent⟩
  | finished => exact Tracked.exit hdispatched honClock h.reason hid false r.turn
  | breakpointHit => exact Tracked.exit hdispatched honClock h.reason hid true r.turn
  | error => exact Tracked.exit hdispatched honClock h.reason hid true r.turn

/-- Every other task, after that turn: all it sees of it are the posts. -/
theorem Tracked.otherTurn {i j : Nat} (h : Tracked [] t L) (hne : i ≠ j) (u : Task) (r : Reading) :
    Tracked (r.turn.posts.foldl postEvent []) t
      ((turnHappenings [] u j r).foldl (Ledger.note i) L) := by
  have hposts := h.postedAll i (accepted [] r.turn.posts)
  rw [foldl_postEvent, turnHappenings, List.foldl_cons, List.foldl_append, List.foldl_append]
  have hstart : ∀ d : Dispatch, d.task = j → L.note i (.dispatched d) = L := by
    rintro d rfl
    simp [Ledger.note, hne.symm]
  have hyield : ∀ (L : Ledger) (y : Option Yield),
      (y.toList.map (Happening.yielded j)).foldl (Ledger.note i) L = L := by
    intro L y
    cases y with
    | none => rfl
    | some y => simp [Ledger.note, hne.symm]
  have hrestart : ∀ L : Ledger,
      (if (dispatchOne u r.nowMs r.turn).vm = u.vm then [] else [.restarted j]).foldl
        (Ledger.note i) L = L := by
    intro L
    split
    · rfl
    · simp [Ledger.note, hne.symm]
  rw [hrestart, hyield, hstart _ rfl]
  exact hposts

end Phases

end KeleusmaTasks
