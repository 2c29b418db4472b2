import Keleusma.Scheduler.Tasks
import Mathlib.Data.List.Zip

/-!
# The dispatch loop

One iteration of `dispatch_loop` as a function of the scheduler's state and of what the
iteration reads (`Reading`): the clock, the signal flags, the manifest a reload finds, and
the turn of the task that is dispatched. The loop itself is the iteration over a list of
readings, until it returns.
-/

namespace KeleusmaTasks

/-! ## State and readings -/

/-- The state `dispatch_loop` carries round. -/
structure Scheduler where
  tasks : List Task
  shutdownGrace : Duration
  shutdownEventId : BitVec 8
  reloadEventId : BitVec 8
  eventQueue : List Event := []
  shutdownDeadline : Option Word := none
  triggeringSignal : Option Nat := none

/-- What one iteration reads. `incoming` is the manifest a reload parses, `none` when it can
not be read or is refused. -/
structure Reading where
  nowMs : Word
  sigint : Bool := false
  sigterm : Bool := false
  reloadRequested : Bool := false
  incoming : Option Manifest := none
  turn : Turn

/-- The loop returned: a shutdown, and the signal that caused it. -/
structure Shutdown where
  triggeringSignal : Option Nat
  deriving DecidableEq

def sigintNumber : Nat := 2
def sigtermNumber : Nat := 15

/-- Every task loaded and none started, on the way into the loop. -/
def start (m : Manifest) : Scheduler where
  tasks := m.tasks.map fun cfg => { cfg := cfg }
  shutdownGrace := m.shutdownGrace
  shutdownEventId := m.eventId "shutdown_requested" 99
  reloadEventId := m.eventId "reload_requested" 98

/-! ## Signals -/

/-- Whether this iteration starts the shutdown. -/
def shutsDown (s : Scheduler) (r : Reading) : Bool :=
  (r.sigint || r.sigterm) && s.shutdownDeadline.isNone

/-- The first shutdown signal becomes an event and a deadline. -/
def takeShutdown (s : Scheduler) (r : Reading) : Scheduler :=
  if shutsDown s r then
    { s with
      triggeringSignal := some (if r.sigint then sigintNumber else sigtermNumber)
      eventQueue := push s.eventQueue ⟨s.shutdownEventId, 0⟩
      shutdownDeadline := some (r.nowMs + s.shutdownGrace.asMillis) }
  else s

/-- The restart settings of an entry go to the first task of its name. -/
def reloadTask (cfg : TaskConfig) : List Task → List Task
  | [] => []
  | t :: tasks =>
    if t.cfg.name = cfg.name then
      { t with cfg := { t.cfg with
          restart := cfg.restart
          restartLimit := cfg.restartLimit
          restartWindow := cfg.restartWindow } } :: tasks
    else t :: reloadTask cfg tasks

/-- `reload_manifest`: a manifest that cannot be used changes nothing. -/
def reloadManifest (s : Scheduler) : Option Manifest → Scheduler
  | none => s
  | some m =>
    { s with
      shutdownGrace := m.shutdownGrace
      tasks := m.tasks.foldl (fun tasks cfg => reloadTask cfg tasks) s.tasks }

/-- A reload is applied and announced as an event, refused or not. -/
def takeReload (s : Scheduler) (r : Reading) : Scheduler :=
  if r.reloadRequested then
    let s := reloadManifest s r.incoming
    { s with eventQueue := push s.eventQueue ⟨s.reloadEventId, 0⟩ }
  else s

/-! ## Waking -/

/-- A task whose deadline has elapsed becomes ready. -/
def refreshTask (now : Word) (t : Task) : Task :=
  match t.state with
  | .sleepingUntil deadline =>
    if deadline ≤ now then { t with state := .ready, lastWakeupReason := wakeupDeadline } else t
  | _ => t

/-- A task that waits for the event becomes ready, and the event is what its natives read. -/
def wakeTask (e : Event) (t : Task) : Task :=
  match t.state with
  | .waitingForEvent id =>
    if id = e.id then
      { t with
        state := .ready
        lastWakeupReason := wakeupEvent
        eventAtomics := ⟨e.id.setWidth 64, e.payload⟩ }
    else t
  | _ => t

/-- The drained events wake the tasks, event by event. -/
def wakeTasks (events : List Event) (tasks : List Task) : List Task :=
  events.foldl (fun tasks e => tasks.map (wakeTask e)) tasks

/-- A task that never ran becomes ready for its first dispatch. -/
def promoteTask (t : Task) : Task :=
  match t.state with
  | .notStarted =>
    if !t.disabled then { t with state := .ready, lastWakeupReason := wakeupFirst } else t
  | _ => t

/-- The tasks on which the candidate is picked. -/
def awaken (s : Scheduler) (now : Word) : Scheduler :=
  { s with
    tasks := (wakeTasks s.eventQueue (s.tasks.map (refreshTask now))).map promoteTask
    eventQueue := [] }

/-! ## Picking and dispatching -/

/-- Whether a task can be dispatched. -/
def runnable (t : Task) : Bool := t.state == .ready && !t.disabled

/-- The one to dispatch of two: the earlier, unless the later has the lower priority value. -/
def moreUrgent (best t : Task × Nat) : Task × Nat :=
  if t.1.cfg.priority < best.1.cfg.priority then t else best

/-- The first of the runnable tasks with the lowest priority value, and its index. -/
def candidate (tasks : List Task) : Option (Task × Nat) :=
  match tasks.zipIdx.filter fun t => runnable t.1 with
  | [] => none
  | t :: rest => some (rest.foldl moreUrgent t)

/-- No task can be dispatched any more. -/
def allFinished (tasks : List Task) : Bool :=
  tasks.all fun t => t.state == .finished || t.disabled

/-- Whether the grace period has elapsed. -/
def graceElapsed (s : Scheduler) (now : Word) : Bool :=
  match s.shutdownDeadline with
  | some deadline => deadline ≤ now
  | none => false

/-- One iteration: the loop returns, or goes round with a new state. Where no task is ready
it sleeps, which only the next clock reading shows. -/
def iteration (s : Scheduler) (r : Reading) : Except Shutdown Scheduler :=
  let s := takeReload (takeShutdown s r) r
  if graceElapsed s r.nowMs then .error ⟨s.triggeringSignal⟩
  else
    let s := awaken s r.nowMs
    match candidate s.tasks with
    | some (t, i) =>
      .ok { s with
        tasks := s.tasks.set i (dispatchOne t r.nowMs r.turn)
        eventQueue := r.turn.posts.foldl postEvent s.eventQueue }
    | none =>
      if allFinished s.tasks then .error ⟨s.triggeringSignal⟩ else .ok s

/-- `dispatch_loop` over the readings it makes: how it returns, or the state it is in. -/
def dispatchLoop (s : Scheduler) : List Reading → Except Shutdown Scheduler
  | [] => .ok s
  | r :: readings =>
    match iteration s r with
    | .ok s => dispatchLoop s readings
    | .error outcome => .error outcome

end KeleusmaTasks
