import WitBindgen.Rt.Waitable
import WitBindgen.Library.Runs

/-!
# The executor of the tasks of a component

`rt/async_support.rs`, `inter_task_wakeup.rs` and `spawn.rs`: the host calls back into a
task with an event, the task polls its futures until nothing is ready, and returns to
the host. Another task may wake it meanwhile. While it sleeps, a read of a stream of its
own stands in its waitable set, and waking it writes to that stream.

The build is one with the features `inter-task-wakeup` and `async-spawn`. Without the
first a task that sleeps cannot be woken by another; without the second it has one future,
and no list of spawned ones.

Between two steps of a task there is code of its users, which may wake any task, spawn
futures, change the maps of the tasks, and run other tasks to the next point. What
`FuturesUnordered` returns is an argument of a step.
-/

namespace WitBindgen

namespace Rt

namespace Executor

/-- The constants `SLEEP_STATE_*`. -/
inductive SleepState where
  | polling
  | woken
  | sleeping
deriving DecidableEq

inductive CallbackCode where
  | exit
  | yield
  | wait
deriving DecidableEq

/-- Where a task is in `callback`, or out of it. -/
inductive Phase where
  | none
  /-- The callback of an event runs, in the loop or before it. -/
  | delivered (looped : Bool)
  | polling
  | polled (ready : Bool)
  | returned (code : CallbackCode)
  /-- `drop` destroys the futures. -/
  | dropping
  | dropped
deriving DecidableEq

/-- The read of a wakeup stream, as the host has it. -/
inductive Copy where
  | idle
  | reading
  | completed
  | dropped
deriving DecidableEq

/-- A task and the state it shares with its wakers. `tasks` is the number of futures that
have not finished, `stream` the readable end of its wakeup stream; the shared state has
the other end. -/
structure TaskState where
  phase : Phase
  sleepState : SleepState
  tasks : Nat
  stream : Option Waitable
  streamReading : Bool
  writer : Bool
  copy : Copy
  /-- Whether a waker was invoked after the last poll began. -/
  woken : Bool
  /-- How often the outstanding read was written to. -/
  writes : Nat
  /-- Whether the host cancelled the task. -/
  cancelled : Bool

namespace TaskState

variable (x : TaskState)

/-- `TaskState::new`, before its first callback. -/
def new : TaskState := ⟨.none, .polling, 1, none, false, false, .idle, false, 0, false⟩

/-- `wake_by_ref`, with `WakerState::wake`. -/
def wake : Except String TaskState :=
  match x.sleepState with
  | .polling | .woken => .ok { x with sleepState := .woken, woken := true }
  | .sleeping =>
    if x.writer then
      match x.copy with
      | .reading =>
        .ok { x with sleepState := .woken, woken := true, copy := .completed, writes := x.writes + 1 }
      | _ => .error "assertion `left == right` failed"
    else .error "called `Option::unwrap()` on a `None` value"

end TaskState

/-- The tasks of a component, the maps and sets of their waitables, and the futures that
`spawn_local` was given and no task has taken. -/
structure State where
  task : Ptr → TaskState
  maps : Tasks
  spawned : Nat

namespace State

variable (s : State)

def setTask (t : Ptr) (f : TaskState → TaskState) : State :=
  { s with task := Function.update s.task t (f (s.task t)) }

def join (h : Waitable) (set : Option Ptr) : State :=
  { s with maps := { s.maps with joined := Function.update s.maps.joined h set } }

/-! ## The wakeup stream -/

/-- `h` is the handle of the stream, should it be made now. -/
def readInterTaskStream (t : Ptr) (h : Waitable) : Except String State := do
  let s ← match (s.task t).stream with
    | some _ => pure s
    | none =>
      if (s.task t).streamReading then .error "assertion failed: !self.inter_task_wakeup.stream_reading"
      else if (s.task t).writer then .error "assertion failed: waker_stream.is_none()"
      else pure (s.setTask t fun x => { x with stream := some h, writer := true, copy := .idle })
  if (s.task t).streamReading then pure s
  else
    match (s.task t).stream with
    | some h =>
      if (s.task t).copy = .idle then
        pure ((s.setTask t fun x => { x with copy := .reading, streamReading := true, writes := 0 }).join h (some t))
      else .error "assertion `left == right` failed"
    | none => .error "called `Option::unwrap()` on a `None` value"

/-- The host traps where there is nothing to cancel. -/
def cancelInterTaskStreamRead (t : Ptr) : Except String State :=
  if (s.task t).streamReading then
    match (s.task t).stream with
    | some h =>
      if (s.task t).copy = .reading ∨ (s.task t).copy = .completed then
        .ok ((s.setTask t fun x => { x with streamReading := false, copy := .idle }).join h none)
      else .error "trap"
    | none => .error "called `Option::unwrap()` on a `None` value"
  else .ok s

/-- The pointer is what the callback of the event is called with. -/
def deliverWaitableEvent (t : Ptr) (h : Waitable) : Except String (Option Ptr × State) :=
  let s := s.join h none
  if (s.task t).stream = some h then
    .ok (none, s.setTask t fun x => { x with streamReading := false, copy := .idle })
  else
    match s.maps.waitableUnregister t h with
    | (some p, maps) => .ok (some p, { s with maps := maps })
    | (none, _) => .error "called `Option::unwrap()` on a `None` value"

/-! ## The callback -/

/-- What the host calls back with. -/
inductive HostEvent where
  | none
  | waitable (h : Waitable)
  | cancel

/-- The `drop` of a task up to the destructors of its futures. -/
def dropTask (t : Ptr) : Except String State := do
  let s ← s.cancelInterTaskStreamRead t
  return s.setTask t fun x => { x with phase := .dropping }

/-- The fields of a task are dropped, its wakeup stream among them. The shared state
stays as long as somebody has it. -/
def dropFields (t : Ptr) : State :=
  s.setTask t fun x => { x with
    phase := .dropped
    tasks := 0
    stream := none
    copy := if x.stream.isSome then .dropped else x.copy }

/-- The task goes back to the host, or is over. -/
def leave (t : Ptr) (code : CallbackCode) : Except String State :=
  match code with
  | .exit => s.dropTask t
  | code => .ok (s.setTask t fun x => { x with phase := .returned code })

/-- `callback`, up to the loop. -/
def callback (t : Ptr) (event : HostEvent) : Except String (Option Ptr × State) :=
  match event with
  | .cancel => do
      let s ← (s.setTask t fun x => { x with cancelled := true }).leave t .exit
      return (none, s)
  | .none => .ok (none, s.setTask t fun x => { x with sleepState := .woken, phase := .delivered false })
  | .waitable h => do
      let (c, s) ← (s.setTask t fun x => { x with sleepState := .woken }).deliverWaitableEvent t h
      return (c, s.setTask t fun x => { x with phase := .delivered false })

/-- A turn of the loop begins. -/
def turn (t : Ptr) : Except String State := do
  let s ← match (s.task t).phase with
    | .delivered false => s.cancelInterTaskStreamRead t
    | _ => pure s
  return s.setTask t fun x => { x with sleepState := .polling, phase := .polling, woken := false }

/-- What `FuturesUnordered` returns when it is polled. -/
inductive Inner where
  | pending
  | none
  | finished

/-- One turn of the loop of `Tasks::poll_next`. -/
def pollNext (t : Ptr) (inner : Inner) : Except String State :=
  let spawned := s.spawned
  let s := { s.setTask t fun x => { x with
    tasks := (match inner with
      | .finished => x.tasks - 1
      | _ => x.tasks) + spawned } with spawned := 0 }
  match inner with
  | .pending => .ok (if spawned = 0 then s.setTask t fun x => { x with phase := .polled false } else s)
  | .none =>
    if spawned = 0 then .ok (s.setTask t fun x => { x with phase := .polled true })
    else .error "assertion failed: !spawned"
  | .finished => .ok s

/-- The turn of the loop ends: `remaining` says whether the map of the task has entries,
`event` is what the host has for a poll of the set, `h` is as in
`readInterTaskStream`. -/
def endTurn (t : Ptr) (ready remaining : Bool) (event : Option Waitable) (h : Waitable) :
    Except String (Option Ptr × State) :=
  if ready then
    if (s.task t).tasks = 0 then do
      let s ← s.leave t (if remaining then .wait else .exit)
      return (none, s)
    else .error "assertion failed: me.tasks.is_empty()"
  else if (s.task t).tasks = 0 then .error "assertion failed: !me.tasks.is_empty()"
  else if (s.task t).sleepState = .woken then
    match (if remaining then event else none) with
    | some h => do
        let (c, s) ← s.deliverWaitableEvent t h
        return (c, s.setTask t fun x => { x with phase := .delivered true })
    | none => do
        let s ← s.leave t .yield
        return (none, s)
  else do
    let s ← (s.setTask t fun x => { x with sleepState := .sleeping }).readInterTaskStream t h
    let s ← s.leave t .wait
    return (none, s)

def wake (t : Ptr) : Except String State := do
  let x ← (s.task t).wake
  return s.setTask t fun _ => x

end State

/-! ## Runs -/

/-- A step of a task, or of the code of its users. `edit` changes the maps. -/
inductive Event where
  | start (t : Ptr)
  | callback (t : Ptr) (event : State.HostEvent)
  | turn (t : Ptr)
  | pollNext (t : Ptr) (inner : State.Inner)
  | endTurn (t : Ptr) (remaining : Bool) (event : Option Waitable) (h : Waitable)
  | dropFields (t : Ptr)
  | wake (t : Ptr)
  | spawn
  | edit (maps : Tasks)

namespace State

variable (s : State)

/-- The next state, and the pointer whose callback runs then. -/
def exec : Event → Except String (Option Ptr × State)
  | .start t => (s.setTask t fun _ => .new).callback t .none
  | .callback t event => s.callback t event
  | .turn t => do
      let s ← s.turn t
      return (none, s)
  | .pollNext t inner => do
      let s ← s.pollNext t inner
      return (none, s)
  | .endTurn t remaining event h =>
    match (s.task t).phase with
    | .polled ready => s.endTurn t ready remaining event h
    | _ => .ok (none, s)
  | .dropFields t => .ok (none, s.dropFields t)
  | .wake t => do
      let s ← s.wake t
      return (none, s)
  | .spawn => .ok (none, { s with spawned := s.spawned + 1 })
  | .edit maps => .ok (none, { s with maps := maps })

/-- The handle is of no wakeup stream, in no set and in no map. -/
def Fresh (h : Waitable) : Prop :=
  (∀ t, (s.task t).stream ≠ some h) ∧ s.maps.joined h = none ∧ ∀ t, s.maps.waitables t h = none

/-- What the host can tell a task: something happened to a waitable in its set. -/
def Deliverable (t : Ptr) (h : Waitable) : Prop :=
  s.maps.joined h = some t ∧ ((s.task t).stream = some h → (s.task t).copy = .completed)

def allowed : Event → Prop
  | .start t => (s.task t).phase = .none
  | .callback t event => (∃ code, (s.task t).phase = .returned code) ∧
      match event with
      | .waitable h => s.Deliverable t h
      | _ => True
  | .turn t => ∃ looped, (s.task t).phase = .delivered looped
  | .pollNext t inner => (s.task t).phase = .polling ∧
      match inner with
      | .none => (s.task t).tasks = 0
      | _ => 0 < (s.task t).tasks
  | .endTurn t remaining event h => (∃ ready, (s.task t).phase = .polled ready) ∧
      (remaining = true ↔ ∃ h, (s.maps.waitables t h).isSome) ∧ (∀ h ∈ event, s.Deliverable t h) ∧ s.Fresh h
  | .dropFields t => (s.task t).phase = .dropping
  | .wake t => (s.task t).phase ≠ .none
  | .spawn => True
  | .edit maps => ∀ t h, (s.task t).stream = some h → maps.joined h = s.maps.joined h

/-- No task has been started. -/
def fresh : State where
  task _ := .new
  maps := .none
  spawned := 0

end State

/-- Every run of the tasks of a component. -/
def system : System State Event String where
  init s := s = State.fresh
  allowed := State.allowed
  exec s e := Prod.snd <$> s.exec e

end Executor

end Rt

end WitBindgen
