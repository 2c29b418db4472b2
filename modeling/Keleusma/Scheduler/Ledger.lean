import Keleusma.Scheduler.Dispatch

/-!
# The wake-up contract

What a run of the loop shows (`Happening`), the account of each task that can be kept from
that alone (`Ledger`), and over the ledger the contract of the design document: which
wake-up reason a dispatch is due, whether it calls or resumes, and what the event natives
read (`Contract`). `Genuine` is the condition on a task's past under which the scheduler
keeps to it.

The ledger is read off the history and not off the scheduler's own fields: which yield a
task made last, whether a clock reading has reached its deadline since, and which posted
event answers it.
-/

namespace KeleusmaTasks

/-! ## What happens -/

/-- The yields the design document names, with what each says. -/
inductive Yield
  | wait (deadline : Word)
  | eventWait (id : Word)
  | voluntary
  | periodic (since : Word) (period : Duration)

/-- The time at which a yield is due, for the two that wait for a time. -/
def Yield.deadline : Yield → Option Nat
  | .wait deadline => some deadline.toNat
  | .periodic since period => some (since.toNat + period / 1000000)
  | _ => none

/-- One dispatch of a task: the reason it receives, how its machine is entered, and what the
event natives read in it. -/
structure Dispatch where
  task : Nat
  reason : Word
  viaCall : Bool
  lastEventId : Word
  lastEventPayload : Word

/-- What a run shows. -/
inductive Happening
  /-- The clock was read. -/
  | clock (now : Word)
  /-- An event went onto the queue. -/
  | posted (p : Post)
  | dispatched (d : Dispatch)
  /-- The dispatched task yielded. -/
  | yielded (task : Nat) (y : Yield)
  /-- The task got a new machine. -/
  | restarted (task : Nat)

/-- The yield a turn ends in, if it ends in one the document names. -/
def yieldOf (t : Task) (now : Word) : VmState → Option Yield
  | .yielded (some (reason, payload)) =>
    if reason = reasonWait then some (.wait payload)
    else if reason = reasonEventWait then some (.eventWait payload)
    else if reason = reasonYield then some .voluntary
    else if reason = reasonPeriodic then some (.periodic now (t.cfg.period.getD 0))
    else none
  | _ => none

/-- The posts there is still room for. -/
def accepted (queue : List Event) (posts : List Post) : List Post :=
  posts.take (maxEventQueue - queue.length)

/-- The posts the signals make, in order. -/
def signalPosts (s : Scheduler) (r : Reading) : List Post :=
  (if shutsDown s r then [⟨s.shutdownEventId.setWidth 64, 0⟩] else []) ++
    if r.reloadRequested then [⟨s.reloadEventId.setWidth 64, 0⟩] else []

/-- The dispatch of a task, as the history records it. -/
def dispatchOf (t : Task) (i : Nat) : Dispatch :=
  ⟨i, t.lastWakeupReason, viaCall t, t.lastEventId, t.lastEventPayload⟩

/-- What the dispatch of task `i` shows. -/
def turnHappenings (queue : List Event) (t : Task) (i : Nat) (r : Reading) : List Happening :=
  .dispatched (dispatchOf t i) ::
    ((accepted queue r.turn.posts).map .posted ++
      (yieldOf t r.nowMs r.turn.outcome).toList.map (.yielded i) ++
        if (dispatchOne t r.nowMs r.turn).vm = t.vm then [] else [.restarted i])

/-- What one iteration shows. -/
def happenings (s : Scheduler) (r : Reading) : List Happening :=
  .clock r.nowMs :: ((accepted s.eventQueue (signalPosts s r)).map .posted ++
    let s := takeReload (takeShutdown s r) r
    if graceElapsed s r.nowMs then []
    else
      let s := awaken s r.nowMs
      match candidate s.tasks with
      | some (t, i) => turnHappenings s.eventQueue t i r
      | none => [])

/-- What the loop shows over the readings it makes. -/
def trace (s : Scheduler) : List Reading → List Happening
  | [] => []
  | r :: readings =>
    happenings s r ++
      match iteration s r with
      | .ok s => trace s readings
      | .error _ => []

/-! ## The account of a task -/

/-- An event that answers an event wait: the post, and whether it came after the yield or
still in the dispatch that ended in it. -/
structure Waker where
  post : Post
  afterYield : Bool

/-- What the history says of one task. -/
structure Ledger where
  /-- This instance of the machine has been dispatched. -/
  dispatched : Bool := false
  /-- The last yield of this instance. -/
  lastYield : Option Yield := none
  /-- A clock reading since that yield has reached its deadline. -/
  reached : Bool := false
  /-- The first event since that yield, or in its own dispatch, that answers it. -/
  waker : Option Waker := none
  /-- The events posted since the task was last dispatched. -/
  recent : List Post := []
  /-- The low byte of the last event the task was dispatched for. -/
  delivered : BitVec 8 := 0

/-- Whether a post names an awaited event, as far as the queue can tell. -/
def answers (w : Word) (p : Post) : Bool := p.id.setWidth 8 == w.setWidth 8

/-- The deadline of the last yield. -/
def Ledger.deadline (L : Ledger) : Option Nat := L.lastYield.bind Yield.deadline

/-- The event id the last yield waits for. -/
def Ledger.awaited (L : Ledger) : Option Word :=
  match L.lastYield with
  | some (.eventWait w) => some w
  | _ => none

/-- The low byte the event natives are due to show in the next dispatch. -/
def Ledger.owed (L : Ledger) : BitVec 8 :=
  match L.awaited, L.waker with
  | some _, some k => k.post.event.id
  | _, _ => L.delivered

/-- Whether a reading of the clock is at or past a deadline. -/
def isDue (deadline : Option Nat) (now : Word) : Bool :=
  match deadline with
  | some n => n ≤ now.toNat
  | none => false

/-- The first event that answers a yield, when the yield stands at the end of a dispatch. -/
def ownWaker (recent : List Post) : Yield → Option Waker
  | .eventWait w => (recent.find? (answers w)).map fun p => ⟨p, false⟩
  | _ => none

/-- The post answers the yield, if the task waits for it. -/
def postWaker (awaited : Option Word) (p : Post) : Option Waker :=
  match awaited with
  | some w => if answers w p then some ⟨p, true⟩ else none
  | none => none

/-- The account of task `i` after a happening. -/
def Ledger.note (i : Nat) (L : Ledger) : Happening → Ledger
  | .clock now => { L with reached := L.reached || isDue L.deadline now }
  | .posted p => { L with waker := L.waker <|> postWaker L.awaited p, recent := L.recent ++ [p] }
  | .dispatched d =>
    if d.task = i then { L with dispatched := true, recent := [], delivered := L.owed } else L
  | .yielded j y =>
    if j = i then { L with lastYield := some y, reached := false, waker := ownWaker L.recent y }
    else L
  | .restarted j => if j = i then { delivered := L.delivered } else L

/-- The account of task `i` after a history. -/
def ledger (i : Nat) (past : List Happening) : Ledger := past.foldl (Ledger.note i) {}

/-! ## The contract -/

/-- What a dispatch owes a task with the given account. -/
structure Contract (L : Ledger) (d : Dispatch) : Prop where
  /-- Reason 0 exactly on the first dispatch of this machine. -/
  first : d.reason = wakeupFirst ↔ L.dispatched = false
  /-- The first dispatch, and no other, is a call. -/
  call : d.viaCall = true ↔ L.dispatched = false
  /-- Reason 1 exactly after a `Wait` or a `Periodic` whose deadline has passed. -/
  deadline : d.reason = wakeupDeadline ↔ L.deadline.isSome ∧ L.reached = true
  /-- Reason 2 exactly after an `EventWait` that an event of its id, posted since, ended. -/
  event : d.reason = wakeupEvent ↔
    ∃ w k, L.awaited = some w ∧ L.waker = some k ∧ k.afterYield = true ∧ k.post.id = w
  /-- With reason 2 the natives read that event. -/
  reads : d.reason = wakeupEvent →
    ∃ k, L.waker = some k ∧ d.lastEventId = k.post.id ∧ d.lastEventPayload = k.post.payload
  /-- Reason 3 exactly after a voluntary yield. -/
  voluntary : d.reason = wakeupVoluntary ↔ L.lastYield = some .voluntary
  /-- With any other reason there is no event id to read. -/
  quiet : d.reason ≠ wakeupEvent → d.lastEventId = 0

/-- The past of a task that leaves the scheduler nothing to get wrong. -/
structure Genuine (L : Ledger) : Prop where
  /-- A machine dispatched before has yielded before. -/
  yielded : L.dispatched = true → L.lastYield ≠ none
  /-- Its last yield was not the voluntary one. -/
  notVoluntary : L.lastYield ≠ some .voluntary
  /-- The deadline of its last yield is a time the clock can show. -/
  onClock : ∀ n, L.deadline = some n → n < 2 ^ 64
  /-- The event that ended an event wait has the id waited for, a byte, and came after. -/
  ownEvent : ∀ w, L.awaited = some w → w.toNat < 256 ∧
    ∃ k, L.waker = some k ∧ k.afterYield = true ∧ k.post.id = w
  /-- After any other yield, no event of a nonzero id was delivered before. -/
  undelivered : L.awaited = none → L.delivered = 0

/-- `P` holds of every dispatch of a history, given what came before it. -/
def AtDispatches (P : List Happening → Dispatch → Prop) (past : List Happening) :
    List Happening → Prop
  | [] => True
  | x :: rest =>
    (match x with
      | .dispatched d => P past d
      | _ => True) ∧ AtDispatches P (past ++ [x]) rest

/-- Every dispatch of a history is as the contract says. -/
def Honoured (history : List Happening) : Prop :=
  AtDispatches (fun past d => Contract (ledger d.task past) d) [] history

/-- Every dispatch of a history finds a past that is `Genuine`. -/
def Undisturbed (history : List Happening) : Prop :=
  AtDispatches (fun past d => Genuine (ledger d.task past)) [] history

end KeleusmaTasks
