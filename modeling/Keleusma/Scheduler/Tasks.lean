import Mathlib.Algebra.Group.Nat.Defs
import Mathlib.Data.List.Basic

/-!
# Tasks of the cooperative scheduler

The data of `run-tasks`: the manifest, the per-task state the scheduler keeps, the event
queue the `kernel::post_event` native fills, and the two functions that act on one task,
`dispatchOne` and `onTaskExit`.

The scheduler sees a virtual machine only through what a call or a resume returns, so a
machine is a number here (which instance it is) and what it does in one dispatch is an input:
the events it posts, how it stops, and what the environment answers if the task has to be
restarted (`Turn`). Words are 64 bits wide, as the runtime's are.
-/

namespace KeleusmaTasks

/-! ## Words and durations -/

/-- A word of the runtime; clock readings in milliseconds are words too. -/
abbrev Word := BitVec 64

/-- A duration, or a reading of the monotonic clock, in nanoseconds. -/
abbrev Duration := Nat

/-- `as_millis() as u64`. -/
def Duration.asMillis (d : Duration) : Word := BitVec.ofNat 64 (d / 1000000)

/-! ## Yield and wake-up reasons -/

def reasonWait : Word := 0
def reasonEventWait : Word := 1
def reasonYield : Word := 2
def reasonPeriodic : Word := 3

def wakeupFirst : Word := 0
def wakeupDeadline : Word := 1
def wakeupEvent : Word := 2
/-- Declared, and marked as dead code: nothing ever assigns it. -/
def wakeupVoluntary : Word := 3

/-! ## The manifest -/

/-- Which exits are followed by a restart. -/
inductive RestartPolicy
  | never
  | onError
  | always
  deriving DecidableEq

/-- One `[[task]]` entry. -/
structure TaskConfig where
  name : String
  period : Option Duration
  restart : RestartPolicy
  restartLimit : Nat
  restartWindow : Duration
  priority : Int

/-- A parsed manifest; `shutdownGrace` is the one scheduler setting that decides anything. -/
structure Manifest where
  shutdownGrace : Duration
  tasks : List TaskConfig
  events : List (String × BitVec 8)

/-- The id the `[events]` table gives to a name, or the convention for it. -/
def Manifest.eventId (m : Manifest) (name : String) (convention : BitVec 8) : BitVec 8 :=
  (m.events.lookup name).getD convention

/-! ## Events -/

/-- One entry of the event queue. -/
structure Event where
  id : BitVec 8
  payload : Word
  deriving DecidableEq

/-- The capacity of the event queue. -/
def maxEventQueue : Nat := 64

/-- Push onto the event queue; a full queue drops the event. -/
def push (queue : List Event) (e : Event) : List Event :=
  if queue.length < maxEventQueue then queue ++ [e] else queue

/-- What a script hands to `kernel::post_event`: two words. -/
structure Post where
  id : Word
  payload : Word
  deriving DecidableEq

/-- The event a post puts on the queue: `id as u8`. -/
def Post.event (p : Post) : Event := ⟨p.id.setWidth 8, p.payload⟩

/-- `kernel::post_event`. -/
def postEvent (queue : List Event) (p : Post) : List Event := push queue p.event

/-! ## Tasks -/

/-- What a task waits for. -/
inductive TaskState
  | notStarted
  | ready
  | sleepingUntil (deadline : Word)
  | waitingForEvent (id : BitVec 8)
  | finished
  deriving DecidableEq

/-- The two cells a task's natives read; they outlive a restart. -/
structure EventAtomics where
  id : Word := 0
  payload : Word := 0
  deriving DecidableEq

/-- What the scheduler keeps for a task. `vm` tells the instances of its machine apart. -/
structure Task where
  cfg : TaskConfig
  vm : Nat := 0
  state : TaskState := .notStarted
  lastWakeupReason : Word := wakeupFirst
  restartHistory : List Duration := []
  disabled : Bool := false
  eventAtomics : EventAtomics := {}

/-- `kernel::last_event_id`. -/
def Task.lastEventId (t : Task) : Word := t.eventAtomics.id

/-- `kernel::last_event_payload`. -/
def Task.lastEventPayload (t : Task) : Word := t.eventAtomics.payload

/-! ## One dispatch -/

/-- How a call or a resume comes back. A yielded value is given as the pair of words
`parse_yield_tuple` makes of it, `none` when it is no such pair. -/
inductive VmState
  | yielded (pair : Option (Word × Word))
  | reset
  | finished
  | breakpointHit
  | error

/-- What the environment decides about one dispatch: the events the machine posts, how it
stops, and, should the task be restarted, the instant of that, whether the arena resets and
whether a new machine can be built. -/
structure Turn where
  posts : List Post
  outcome : VmState
  instant : Duration
  arenaReset : Bool
  vmNew : Bool

/-- The restarts still inside the window. -/
def withinWindow (now window : Duration) : List Duration → List Duration
  | [] => []
  | t :: history => if window < now - t then withinWindow now window history else t :: history

/-- Whether a policy restarts a task that returned or failed. -/
def shouldRestart : RestartPolicy → Bool → Bool
  | .never, _ => false
  | .onError, wasError => wasError
  | .always, _ => true

/-- The task after its machine returned or failed. -/
def onTaskExit (t : Task) (wasError : Bool) (turn : Turn) : Task :=
  if !shouldRestart t.cfg.restart wasError then { t with state := .finished }
  else
    let history := withinWindow turn.instant t.cfg.restartWindow t.restartHistory
    if t.cfg.restartLimit ≤ history.length then
      { t with restartHistory := history, disabled := true, state := .finished }
    else
      let t := { t with restartHistory := history ++ [turn.instant] }
      if !turn.arenaReset then { t with disabled := true, state := .finished }
      else if !turn.vmNew then { t with disabled := true, state := .finished }
      else { t with vm := t.vm + 1, state := .ready, lastWakeupReason := wakeupFirst }

/-- Whether the dispatch of a task calls its machine instead of resuming it. -/
def viaCall (t : Task) : Bool := t.state == .ready && t.lastWakeupReason == wakeupFirst

/-- The state a yielded pair puts the task in. -/
def yieldState (cfg : TaskConfig) (now reason payload : Word) : TaskState :=
  if reason = reasonWait then .sleepingUntil payload
  else if reason = reasonEventWait then .waitingForEvent (payload.setWidth 8)
  else if reason = reasonYield then .ready
  else if reason = reasonPeriodic then
    .sleepingUntil (now + (cfg.period.map Duration.asMillis).getD 0)
  else .finished

/-- The task after a dispatch; the machine's answer is in `turn`. -/
def dispatchOne (t : Task) (now : Word) (turn : Turn) : Task :=
  match turn.outcome with
  | .yielded (some (reason, payload)) =>
    { t with state := yieldState t.cfg now reason payload }
  | .yielded none => { t with state := .finished }
  | .reset => { t with state := .ready }
  | .finished => onTaskExit t false turn
  | .breakpointHit => onTaskExit t true turn
  | .error => onTaskExit t true turn

end KeleusmaTasks
