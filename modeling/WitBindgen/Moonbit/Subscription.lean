import WitBindgen.Moonbit.Subtask

/-!
# Subscriptions of a component task

`async/ev.mbt`: an operation that the host cannot complete at once leaves a subscriber
in the map of its component task, under the index of its handle, and joins the handle to
the waitable set of the task. The event takes the handle out of the set and stays with
the subscriber until the operation goes on, which removes the entry.

An endpoint is closed by any coroutine, also while a read of it waits: the closer
cancels the read, removes its entry, wakes it, and drops the handle. From then on the
host may give the same index to something else. What reads and writes carry over does
not matter here.
-/

namespace WitBindgen

namespace Moonbit

namespace Subscription

open Subtask (SubTaskState)

abbrev Index := Nat
abbrev EndId := Nat
abbrev SubscriberId := Nat

/-- What a suspended coroutine waits for: its start, the event of a subscriber, or
anything else. -/
inductive Waits where
  | start
  | event (u : SubscriberId)
  | other
deriving DecidableEq

inductive Kind where
  | futureRead
  | streamRead
  | futureWrite
  | streamWrite
  | subtask
  | wakeup
deriving DecidableEq

def Kind.isRead : Kind → Bool
  | futureRead | streamRead => true
  | _ => false

def Kind.isWrite : Kind → Bool
  | futureWrite | streamWrite => true
  | _ => false

inductive CopyResult where
  | Completed
  | Dropped
  | Cancelled
deriving DecidableEq

inductive Events where
  | copy (result : CopyResult)
  | subtask (st : SubTaskState)
deriving DecidableEq

/-- Whether the operation that gets this event closes its end. -/
def Kind.closes : Kind → Events → Bool
  | futureRead, .copy .Completed => true
  | streamRead, .copy .Dropped => true
  | futureWrite, .copy .Completed | futureWrite, .copy .Dropped => true
  | streamWrite, .copy .Dropped => true
  | subtask, .subtask st => st.terminal
  | _, _ => false

/-- A waitable of the guest, with the state of the source or writer that has it. `busy`
is the flag `reading`, or says that the writer's lock is held; `discarding` and
`cleanupDone` are the flags by which a closer and the read it cancels know of each
other, and `task` is where the read waits. -/
structure End where
  kind : Kind
  index : Index
  closed : Bool
  busy : Bool
  discarding : Bool
  cleanupDone : Bool
  task : Lane

/-- A subscriber, with the task, the index and the end that it was made for. -/
structure Subscriber where
  event : Option Events
  coro : List CoroId
  lane : Lane
  index : Index
  of : EndId

/-- The readable end of the stream by which a task is woken. -/
structure TaskWakeup where
  reader : EndId
  reading : Bool

structure Task where
  alive : Bool
  root : CoroId
  wakeup : Option TaskWakeup

/-- The component tasks, and of the host its table of handles and the set that each
handle is in. `removals` lists for whom an entry was removed, and whose it was. -/
structure State where
  sched : Scheduler Waits
  tasks : Lane → Task
  subscribers : Lane → Index → Option SubscriberId
  subscriber : SubscriberId → Subscriber
  subs : SubscriberId
  ends : EndId → End
  endCount : EndId
  table : Index → Option EndId
  joined : Index → Option Lane
  removals : List (EndId × EndId)

namespace State

variable (s : State)

def setEnd (e : EndId) (f : End → End) : State :=
  { s with ends := Function.update s.ends e (f (s.ends e)) }

def setSubscriber (u : SubscriberId) (f : Subscriber → Subscriber) : State :=
  { s with subscriber := Function.update s.subscriber u (f (s.subscriber u)) }

def setTask (l : Lane) (f : Task → Task) : State :=
  { s with tasks := Function.update s.tasks l (f (s.tasks l)) }

def waitableJoin (h : Index) (set : Option Lane) : State :=
  { s with joined := Function.update s.joined h set }

def subscribe (l : Lane) (h : Index) (u : Option SubscriberId) : State :=
  { s with subscribers := Function.update s.subscribers l (Function.update (s.subscribers l) h u) }

/-- `subscribers.remove`, for an operation on `e`. -/
def remove (l : Lane) (h : Index) (e : EndId) : State :=
  match s.subscribers l h with
  | some u => { s.subscribe l h none with removals := s.removals ++ [(e, (s.subscriber u).of)] }
  | none => s

def wakeAll (cs : List CoroId) : State := { s with sched := cs.foldl (·.wake ·) s.sched }

/-- A new handle for the guest. -/
def newEnd (kind : Kind) (h : Index) (busy : Bool) : State :=
  { s with
    ends := Function.update s.ends s.endCount ⟨kind, h, false, busy, false, false, 0⟩
    endCount := s.endCount + 1
    table := Function.update s.table h (some s.endCount) }

/-- A handle is dropped: the host takes it out of its set and its table. -/
def dropEnd (e : EndId) : State :=
  { s.setEnd e fun x => { x with closed := true } with
    table := Function.update s.table (s.ends e).index none
    joined := Function.update s.joined (s.ends e).index none }

/-- The same, unless it was dropped before. -/
def dropOpen (e : EndId) : State := if (s.ends e).closed then s else s.dropEnd e

/-- `detach_waitable`. -/
def detachWaitable (l : Lane) (e : EndId) : State :=
  let h := (s.ends e).index
  match s.subscribers l h with
  | some u => ((s.setSubscriber u fun x => { x with coro := [] }).remove l h e).waitableJoin h none
  | none => s.waitableJoin h none

/-- `notify_subscriber`. -/
def notifySubscriber (l : Lane) (h : Index) (event : Events) : Except String State :=
  match (s.tasks l).wakeup with
  | some wakeup =>
    if (s.ends wakeup.reader).index = h then
      .ok (((s.setTask l fun t => { t with wakeup := some { wakeup with reading := false } }).remove l h
        wakeup.reader).waitableJoin h none)
    else notify
  | none => notify
where
  notify : Except String State :=
    match s.subscribers l h with
    | some u =>
      .ok (((s.setSubscriber u fun x => { x with event := some event }).wakeAll
        (s.subscriber u).coro).waitableJoin h none)
    | none => .error "guard failed"

/-! ## The wakeup of a task -/

/-- `arm_task_wakeup`. -/
def armTaskWakeup (l : Lane) (h : Index) : Except String State :=
  let (wakeup, s) := match (s.tasks l).wakeup with
    | some wakeup => (wakeup, s)
    | none => (⟨s.endCount, false⟩, s.newEnd .wakeup h false)
  if wakeup.reading then .ok s
  else
    let h := (s.ends wakeup.reader).index
    match s.subscribers l h with
    | some _ => .error "guard failed"
    | none =>
      let u := s.subs
      let s : State := { s with
        subscriber := Function.update s.subscriber u ⟨none, [], l, h, wakeup.reader⟩
        subs := s.subs + 1 }
      .ok (((s.subscribe l h (some u)).waitableJoin h (some l)).setTask l fun t =>
        { t with wakeup := some { wakeup with reading := true } })

/-- `cancel_task_wakeup_read`, where the read is not preserved. -/
def cancelTaskWakeupRead (l : Lane) : State :=
  match (s.tasks l).wakeup with
  | some wakeup =>
    if wakeup.reading then
      let h := (s.ends wakeup.reader).index
      ((s.waitableJoin h none).remove l h wakeup.reader).setTask l fun t =>
        { t with wakeup := some { wakeup with reading := false } }
    else s
  | none => s

/-- `drop_task_wakeup`. -/
def dropTaskWakeup (l : Lane) : State :=
  match (s.tasks l).wakeup with
  | some wakeup =>
    let s := s.cancelTaskWakeupRead l
    (s.dropEnd wakeup.reader).setTask l fun t => { t with wakeup := none }
  | none => s

/-- `lane.blocking`, which every suspension raises until it is over. -/
def blocking (l : Lane) : Nat :=
  (List.range s.sched.coroId).countP fun c => (s.sched.coros c).lane == l &&
    match (s.sched.coros c).state with
    | .suspend .start => false
    | .suspend _ => true
    | _ => false

/-- `finish_waitableset`. That the map is empty then is shown below. -/
def finishWaitableset (l : Lane) : Except String State :=
  if s.blocking l = 0 ∧ s.sched.runLater l = [] then
    .ok ((s.dropTaskWakeup l).setTask l fun t => { t with alive := false })
  else .error "panic"

/-! ## Sources and writers -/

/-- `cancel_waitable_event` for the end `e`; `reply` is what the host answers. -/
def cancelWaitableEvent (l : Lane) (e : EndId) (reply : Events) : Except String State :=
  let h := (s.ends e).index
  if (s.tasks l).alive then
    match s.subscribers l h with
    | some u =>
      let event := (s.subscriber u).event.getD reply
      .ok ((((s.waitableJoin h none).setSubscriber u fun x => { x with event := some event }).wakeAll
        (s.subscriber u).coro).remove l h e)
    | none => .error "guard failed"
  else .error "guard failed"

def finishRead (e : EndId) : State :=
  s.setEnd e fun x => { x with busy := false, discarding := false, task := 0 }

/-- `wait_for_read_cleanup`. The latch is set in the step that starts discarding, so
that nobody has to wait for it. -/
def waitForReadCleanup (e : EndId) : Except String State :=
  if (s.ends e).cleanupDone then .ok s else .error "waits for the cleanup of the read"

/-- `cancel_active_read`. -/
def cancelActiveRead (e : EndId) (reply : Events) : Except String State :=
  if !(s.ends e).busy then .ok s
  else if (s.ends e).discarding then s.waitForReadCleanup e
  else do
    let s := s.setEnd e fun x => { x with discarding := true }
    let s ← s.cancelWaitableEvent (s.ends e).task e reply
    return s.setEnd e fun x => { x with cleanupDone := true }

/-- `close` of a source. -/
def close (e : EndId) (reply : Events) : Except String State :=
  if (s.ends e).closed then .ok s
  else do
    let s ← if (s.ends e).busy then s.cancelActiveRead e reply else pure s
    return s.dropEnd e

/-- `close_sync` of a source. -/
def closeSync (e : EndId) : State :=
  if (s.ends e).closed || (s.ends e).busy then s else s.dropEnd e

/-- A read or write whose suspension raised without an event. -/
def raised (l : Lane) (e : EndId) (reply : Events) : Except String State :=
  if (s.ends e).kind.isRead then
    if (s.ends e).discarding then do
      let s ← s.waitForReadCleanup e
      return s.finishRead e
    else do
      let s ← s.cancelActiveRead e reply
      return (s.dropOpen e).finishRead e
  else do
    let s ← s.cancelWaitableEvent l e reply
    return (s.dropOpen e).finishRead e

/-- A read or write that got its event. -/
def completed (e : EndId) (event : Events) : Except String State :=
  if (s.ends e).discarding then do
    let s ← s.waitForReadCleanup e
    return s.finishRead e
  else
    let s := s.finishRead e
    .ok (if (s.ends e).kind.closes event then s.dropOpen e else s)

/-- `waitable_event`, up to its suspension. -/
def waitableEvent (c : CoroId) (e : EndId) (reply : Events) : Except String State :=
  let l := (s.sched.coros c).lane
  let h := (s.ends e).index
  if (s.tasks l).alive then
    let (u, s) := match s.subscribers l h with
      | some u => (u, s)
      | none => (s.subs, { s with
          subscriber := Function.update s.subscriber s.subs ⟨none, [], l, h, e⟩
          subs := s.subs + 1 : State }.subscribe l h (some s.subs))
    if (s.subscriber u).event.isSome then .error "guard failed"
    else
      let s := s.waitableJoin h (some l)
      if (s.sched.coros c).interrupted then s.raised l e reply
      else
        let s := s.setSubscriber u fun x => { x with coro := x.coro ++ [c] }
        .ok { s with sched := s.sched.suspend c (.event u) }
  else .error "called `unwrap` on a `None` value"

/-- A read or write of an end: `immediate` is what the host returns at once. -/
def operate (c : CoroId) (e : EndId) (immediate : Option Events) (reply : Events) : Except String State :=
  if (s.ends e).closed || (s.ends e).busy then .ok s
  else
    let l := (s.sched.coros c).lane
    let s := s.setEnd e fun x => { x with
      busy := true
      task := l
      discarding := false
      cleanupDone := false }
    match immediate with
    | some event =>
      let h := (s.ends e).index
      if (s.tasks l).alive then
        match s.subscribers l h with
        | some u => ((((s.setSubscriber u fun x => { x with event := some event, coro := [] }).wakeAll
            (s.subscriber u).coro).waitableJoin h none).remove l h e).completed e event
        | none => s.completed e event
      else .error "called `unwrap` on a `None` value"
    | none => s.waitableEvent c e reply

/-! ## Subtasks -/

/-- A call ends: its handle is detached and dropped. -/
def leaveSubtask (l : Lane) (e : EndId) : State := ((s.detachWaitable l e).dropEnd e).finishRead e

/-- A cancelled call: whatever the last state, the call ends with it. -/
def cancelSubtask (l : Lane) (e : EndId) : State := (s.detachWaitable l e).leaveSubtask l e

/-- One turn of the loop of `suspend_for_subtask`, up to its suspension. -/
def awaitSubtask (c : CoroId) (l : Lane) (u : SubscriberId) (e : EndId) : Except String State :=
  let h := (s.ends e).index
  match s.subscribers l h with
  | some _ => .error "guard failed"
  | none =>
    let s := (s.subscribe l h (some u)).waitableJoin h (some l)
    if (s.sched.coros c).interrupted then .ok (s.cancelSubtask l e)
    else .ok { s with sched := s.sched.suspend c (.event u) }

/-- `suspend_for_subtask` of a call that returned the handle `h` and is not over. -/
def suspendForSubtask (c : CoroId) (h : Index) : Except String State :=
  let l := (s.sched.coros c).lane
  let e := s.endCount
  let u := s.subs
  let s := s.newEnd .subtask h true
  if (s.tasks l).alive then
    { s with
      subscriber := Function.update s.subscriber u ⟨none, [c], l, h, e⟩
      subs := s.subs + 1 : State }.awaitSubtask c l u e
  else .error "called `unwrap` on a `None` value"

/-! ## Going on -/

/-- A coroutine that waited for the event of `u` goes on. -/
def resumed (c : CoroId) (u : SubscriberId) (interrupted : Bool) (reply : Events) : Except String State :=
  let ⟨event, _, l, h, e⟩ := s.subscriber u
  if (s.ends e).kind = .subtask then
    if interrupted then .ok (s.cancelSubtask l e)
    else
      let s := s.remove l h e
      match event with
      | some event =>
        if (s.ends e).kind.closes event then .ok (s.leaveSubtask l e)
        else (s.setSubscriber u fun x => { x with event := none }).awaitSubtask c l u e
      | none => s.awaitSubtask c l u e
  else
    let s := s.setSubscriber u fun x => { x with coro := x.coro.erase c }
    match event with
    | some event => (s.remove l h e).completed e event
    | none => if interrupted then s.raised l e reply else .error "called `unwrap` on a `None` value"

/-- One turn of `reschedule`. -/
def resume (lane : Lane) (reply : Events) : Except String State :=
  match s.sched.runLater lane with
  | [] => .ok s
  | c :: _ =>
    let s' : State := { s with sched := s.sched.reschedule lane }
    match (s.sched.coros c).state with
    | .suspend (.event u) => s'.resumed c u (s'.sched.coros c).interrupted reply
    | .suspend .start => .ok { s' with sched := s'.sched.shield c false }
    | _ => .ok s'

end State

/-! ## Runs -/

/-- What coroutines and the host do. `lift` gives the guest a readable or writable end.
`reply` is what the host answers if the step cancels something. -/
inductive Event where
  | beginTask (lane : Lane)
  | spawn (lane : Lane)
  | resume (lane : Lane) (reply : Events)
  | lift (kind : Kind) (h : Index)
  | operate (e : EndId) (immediate : Option Events) (reply : Events)
  | close (e : EndId) (reply : Events)
  | closeSync (e : EndId)
  | call (h : Index)
  | deliver (lane : Lane) (h : Index) (event : Events)
  | arm (lane : Lane) (h : Index)
  | cancelWakeup (lane : Lane)
  | finishTask (lane : Lane)
  | cancel (c : CoroId)
  | shield (shielded : Bool)
  | park
  | unpark (c : CoroId)
  | finish (failed : Bool)

namespace State

variable (s : State)

/-- The coroutine that runs does something to the scheduler. -/
def running (f : CoroId → Scheduler Waits) : State :=
  match s.sched.currCoro with
  | some c => { s with sched := f c }
  | none => s

/-- A coroutine that runs calls something. -/
def calls (f : CoroId → Except String State) : Except String State :=
  match s.sched.currCoro with
  | some c => f c
  | none => .error "called `unwrap` on a `None` value"

def exec : Event → Except String State
  | .beginTask lane => .ok { s.setTask lane fun _ => ⟨true, s.sched.coroId, none⟩ with
      sched := s.sched.spawnOwned lane .start }
  | .spawn lane => .ok { s with sched := s.sched.spawnOwned lane .start }
  | .resume lane reply => s.resume lane reply
  | .lift kind h => .ok (s.newEnd kind h false)
  | .operate e immediate reply => s.calls fun c => s.operate c e immediate reply
  | .close e reply => s.close e reply
  | .closeSync e => .ok (s.closeSync e)
  | .call h => s.calls fun c => s.suspendForSubtask c h
  | .deliver lane h event => s.notifySubscriber lane h event
  | .arm lane h => s.armTaskWakeup lane h
  | .cancelWakeup lane => .ok (s.cancelTaskWakeupRead lane)
  | .finishTask lane => s.finishWaitableset lane
  | .cancel c => .ok { s with sched := s.sched.cancel c }
  | .shield shielded => .ok (s.running fun c => s.sched.shield c shielded)
  | .park => .ok (s.running fun c =>
    if (s.sched.coros c).interrupted then s.sched else s.sched.suspend c .other)
  | .unpark c => .ok { s with sched := s.sched.wake c }
  | .finish failed => .ok (s.running fun c => s.sched.finish c (if failed then .fail else .done))

/-- The host gives out an index that is free, and tells events of what is in a set.
Only a source is closed while it is read. -/
def allowed : Event → Prop
  | .beginTask lane => (s.tasks lane).alive = false ∧ (s.tasks lane).wakeup = none
  | .resume _ _ => s.sched.currCoro = none
  | .lift kind h => s.table h = none ∧ (kind.isRead = true ∨ kind.isWrite = true)
  | .operate e _ _ => e < s.endCount ∧ ((s.ends e).kind.isRead = true ∨ (s.ends e).kind.isWrite = true)
  | .close e _ => e < s.endCount ∧ (s.ends e).kind.isRead = true
  | .closeSync e => e < s.endCount ∧ ((s.ends e).kind.isRead = true ∨ (s.ends e).kind.isWrite = true)
  | .call h => s.table h = none
  | .deliver lane h _ => s.joined h = some lane
  | .arm lane h => (s.tasks lane).alive = true ∧ ((s.tasks lane).wakeup = none → s.table h = none)
  | .finishTask lane => s.sched.currCoro = none ∧ (s.tasks lane).alive = true
  | .unpark c => c < s.sched.coroId
  | .spawn _ | .cancelWakeup _ | .cancel _ | .shield _ | .park | .finish _ => True

/-- Nothing has happened. -/
def fresh : State where
  sched := .empty
  tasks _ := ⟨false, 0, none⟩
  subscribers _ _ := none
  subscriber _ := ⟨none, [], 0, 0, 0⟩
  subs := 0
  ends _ := ⟨.streamRead, 0, true, false, false, false, 0⟩
  endCount := 0
  table _ := none
  joined _ := none
  removals := []

end State

/-- Every run of a component. -/
def system : System State Event String where
  init s := s = State.fresh
  allowed := State.allowed
  exec := State.exec

/-- No coroutine of the task still has to hear that its entry under this index was
removed by somebody who closed its end. -/
def State.Heard (s : State) (l : Lane) (h : Index) : Prop :=
  ∀ c u, (s.sched.coros c).state = .suspend (.event u) → (s.subscriber u).lane = l →
    (s.subscriber u).index = h → s.subscribers l h = some u

/-- No index is registered again before that. -/
def State.NotReused (s : State) : Event → Prop
  | .operate e none _ => ∀ c, s.sched.currCoro = some c → s.Heard (s.sched.coros c).lane (s.ends e).index
  | .call h => ∀ c, s.sched.currCoro = some c → s.Heard (s.sched.coros c).lane h
  | .arm l h => s.Heard l (match (s.tasks l).wakeup with
      | some wakeup => (s.ends wakeup.reader).index
      | none => h)
  | _ => True

/-- The runs whose steps all meet `NotReused`. -/
def orderly : System State Event String where
  init s := s = State.fresh
  allowed s e := s.allowed e ∧ s.NotReused e
  exec := State.exec

/-- What `notify_subscriber` relies on: the waitables in the set of a task are those
whose subscribers have not got their event, and each subscriber is that of an operation
which waits on what its index stands for, or of the task's wakeup. -/
structure State.Subscribed (s : State) : Prop where
  joined : ∀ h l, s.joined h = some l ↔
    ∃ u, s.subscribers l h = some u ∧ (s.subscriber u).event = none
  owner : ∀ l h u, s.subscribers l h = some u →
    (s.subscriber u).lane = l ∧ (s.subscriber u).index = h ∧ s.table h = some (s.subscriber u).of ∧
    ((∃ c, (s.sched.coros c).state = .suspend (.event u) ∧ (s.sched.coros c).lane = l) ∨
      ∃ wakeup, (s.tasks l).wakeup = some wakeup ∧ wakeup.reading = true ∧ wakeup.reader = (s.subscriber u).of)
  own : ∀ p ∈ s.removals, p.1 = p.2
  finished : ∀ l, s.blocking l = 0 → (∀ wakeup, (s.tasks l).wakeup = some wakeup → wakeup.reading = false) →
    ∀ h, s.subscribers l h = none

end Subscription

end Moonbit

end WitBindgen
