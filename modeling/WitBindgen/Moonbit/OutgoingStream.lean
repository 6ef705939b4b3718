import WitBindgen.Moonbit.Semaphore

/-!
# The bridge of an outgoing stream

The code generated for a lowered stream: writes to its sink are lowered into a
staging window that is offered to the host until it is taken or the reader is
gone, and a coroutine of the component task closes the writable end when its
producer has ended. Calls on the sink take turns by `writer_lock`, a mutex, whose
model also has the coroutines.

The subscriber of a write that waits for the host is kept with the call: while
calls hold the lock one at a time, no other write finds the entry of the map. What
other operations of the task do to that entry is an event of its own.
-/

namespace WitBindgen

namespace Moonbit

namespace Outgoing

inductive CopyResult where
  | completed
  | dropped
  | cancelled
deriving DecidableEq

structure StreamResult where
  progress : Nat
  copyResult : CopyResult
deriving DecidableEq

/-- The calls that take `writer_lock`. -/
inductive Op where
  /-- `Sink::write`, of so many values. -/
  | write (length : Nat)
  | close
  /-- The end of the bridge. -/
  | final
deriving DecidableEq

/-- Where a coroutine is in a call. -/
inductive Phase where
  | idle
  | acquiring (op : Op)
  /-- At the top of the loop, with what was transferred of a window. -/
  | looping (w total : Nat)
  /-- In `waitable_event`, with the event that has come and whether the subscriber
  map has the entry. -/
  | waiting (w total : Nat) (event : Option StreamResult) (entry : Bool)
  /-- In the `catch` of the wait. -/
  | cancelling (w total : Nat) (entry : Bool)
deriving DecidableEq

/-- A staging window, with the progress that the host reported for it. -/
structure Window where
  length : Nat
  reported : List Nat
  /-- The arguments of `settle_staging`. -/
  settled : List Nat
  committed : List Nat
  rejected : List Nat
  freed : Nat
deriving DecidableEq

def Window.new (length : Nat) : Window := ⟨length, [], [], [], [], 0⟩

/-- A call of `Sink::write` that staged its values or had them cleaned up. -/
structure Write where
  length : Nat
  staged : Option Nat
  cleaned : Nat
deriving DecidableEq

/-- `bridge` is the coroutine that runs the producer. -/
structure State where
  sem : Semaphore.State
  phase : CoroId → Phase
  bridge : CoroId
  stagingWindow : Nat
  writerClosed : Bool
  /-- What the host's write in flight was offered. -/
  copying : Option Nat
  droppedWritable : Nat
  windows : Nat → Window
  staged : Nat
  writes : List Write
  ended : Bool
  panicked : Option String

namespace State

variable (s : State)

abbrev coro (c : CoroId) : Coroutine Semaphore.Waits := s.sem.sched.coros c

def setPhase (c : CoroId) (p : Phase) : State :=
  { s with phase := Function.update s.phase c p }

def setWindow (w : Nat) (x : Window) : State :=
  { s with windows := Function.update s.windows w x }

/-! ## Calls -/

/-- `settle_staging`. -/
def settleStaging (w transferred : Nat) : State :=
  let x := s.windows w
  s.setWindow w { x with
    settled := x.settled ++ [transferred]
    committed := x.committed ++ List.range' 0 transferred
    rejected := x.rejected ++
      if transferred < x.length then List.range' transferred (x.length - transferred) else []
    freed := x.freed + 1 }

/-- `close_writer`. The host stops a component that drops an end in use. -/
def closeWriter : Except String State :=
  if s.writerClosed then .ok s
  else if s.copying.isSome || s.droppedWritable ≠ 0 then .error "trap"
  else .ok { s with writerClosed := true, droppedWritable := s.droppedWritable + 1 }

/-- The call ends, and its `defer` releases the lock. -/
def leave (c : CoroId) : Except String State := do
  let sem ← s.sem.release
  .ok { s.setPhase c .idle with sem := sem }

/-- The values are lowered into a new window. -/
def stage (c : CoroId) (length dataLen : Nat) : State :=
  { (s.setWindow s.staged (.new dataLen)).setPhase c (.looping s.staged 0) with
    staged := s.staged + 1
    writes := s.writes ++ [⟨length, some s.staged, 0⟩] }

/-- A call goes on behind `writer_lock.acquire()`. A write that finds the writer
closed returns 0, and `Sink::write` cleans all its values up. -/
def enter (c : CoroId) : Op → Except String State
  | .write length =>
    if s.writerClosed || length = 0 then
      State.leave { s with writes := s.writes ++ [⟨length, none, length⟩] } c
    else
      .ok (s.stage c length (if length < s.stagingWindow then length else s.stagingWindow))
  | .close => do
      let s ← s.closeWriter
      s.leave c
  | .final => do
      let s ← s.closeWriter
      let s ← s.leave c
      -- `protect_from_cancel` ends here
      .ok { s with ended := true, sem := { s.sem with sched := s.sem.sched.shield c false } }

def beginCall (c : CoroId) (op : Op) : Except String State :=
  let s' := { s with sem := s.sem.acquire c }
  if 0 < s.sem.value then s'.enter c op
  else if (s.coro c).interrupted then .ok s'
  else .ok (s'.setPhase c (.acquiring op))

/-- `total = total + progress`. -/
def advance (c : CoroId) (w total progress : Nat) : State :=
  (s.setWindow w { s.windows w with reported := (s.windows w).reported ++ [progress] }).setPhase c
    (.looping w (total + progress))

/-- The rest of the loop's body, with what `suspend_for_stream_write` returned. -/
def written (c : CoroId) (w total : Nat) (result : StreamResult) : Except String State :=
  let s := s.advance c w total result.progress
  let total := total + result.progress
  if result.copyResult = .dropped then do
    let s ← (s.settleStaging w total).closeWriter
    s.leave c
  else if total < (s.windows w).length then .ok s
  else (s.settleStaging w total).leave c

/-- The loop offers the rest of the window; the host's answer is `none` where the
write is blocked. -/
def offer (c : CoroId) (w total : Nat) : Option StreamResult → Except String State
  | none =>
    if s.copying.isSome || s.droppedWritable ≠ 0 then .error "trap"
    else
      let s := { s with copying := some ((s.windows w).length - total) }
      if (s.coro c).interrupted then .ok (s.setPhase c (.cancelling w total true))
      else .ok ({ s with sem := { s.sem with sched := s.sem.sched.suspend c .other } }.setPhase c
        (.waiting w total none true))
  | some result =>
    if s.copying.isSome || s.droppedWritable ≠ 0 then .error "trap"
    else s.written c w total result

/-- `cancel_stream_write` with the host's answer, and the rest of the `catch`. -/
def cancelWrite (c : CoroId) (w total : Nat) (entry : Bool) (result : StreamResult) :
    Except String State :=
  if !entry then .error "guard"
  else if s.copying.isNone then .error "trap"
  else do
    let s := { s with copying := none }.advance c w total result.progress
    let s ← (s.settleStaging w (total + result.progress)).closeWriter
    s.leave c

/-- One turn of `reschedule`. -/
def resume (lane : Lane) : Except String State :=
  match s.sem.sched.runLater lane with
  | [] => .ok s
  | c :: _ =>
    let s' := { s with sem := s.sem.resume lane }
    match s.sem.state c, s.phase c with
    | .suspend (.acquire w), .acquiring op =>
      if (s'.coro c).interrupted && !s.sem.acquired w then
        -- `acquire` raises; so does the bridge, where it is its own call
        .ok { s'.setPhase c .idle with ended := s.ended || op = .final }
      else
        s'.enter c op
    | .suspend .other, .waiting w total (some result) _ =>
      (s'.setPhase c (.looping w total)).written c w total result
    | .suspend .other, .waiting w total none entry =>
      if (s'.coro c).interrupted then .ok (s'.setPhase c (.cancelling w total entry))
      else .error "called `unwrap` on a `None` value"
    | _, _ => .ok s'

/-- `notify_subscriber` with the event of the write in flight. -/
def deliver (c : CoroId) (result : StreamResult) : Except String State :=
  match s.phase c with
  | .waiting w total none true =>
    .ok ({ s with copying := none, sem := { s.sem with sched := s.sem.sched.wake c } }.setPhase c
      (.waiting w total (some result) true))
  | _ => .error "guard"

end State

/-! ## Runs -/

/-- `sched` is whatever coroutines do outside the calls on the sink. -/
inductive Event where
  | sched (e : Semaphore.Event)
  | resume (lane : Lane)
  | begin (op : Op)
  | offer (reply : Option StreamResult)
  | cancelWrite (result : StreamResult)
  | deliver (c : CoroId) (result : StreamResult)
  /-- An operation of the task that once waited under the index of the writable
  end removes the entry. -/
  | entryRemoved (c : CoroId)

namespace State

variable (s : State)

/-- The calls up to the lock: `Sink::write` has the callback write one window, and
the bridge shields its own call. -/
def call (c : CoroId) : Op → Except String State
  | .write length =>
    if length = 0 then .ok s
    else s.beginCall c (.write (if length < s.stagingWindow then length else s.stagingWindow))
  | .close => s.beginCall c .close
  | .final =>
    State.beginCall { s with sem := { s.sem with sched := s.sem.sched.shield c true } } c .final

def exec : Event → Except String State
  | .sched e => do
      let sem ← s.sem.exec e
      .ok { s with sem := sem }
  | .resume lane => s.resume lane
  | .begin op =>
    match s.sem.sched.currCoro with
    | some c => s.call c op
    | none => .error "called `unwrap` on a `None` value"
  | .offer reply =>
    match s.sem.sched.currCoro with
    | some c =>
      match s.phase c with
      | .looping w total => s.offer c w total reply
      | _ => .ok s
    | none => .ok s
  | .cancelWrite result =>
    match s.sem.sched.currCoro with
    | some c =>
      match s.phase c with
      | .cancelling w total entry => s.cancelWrite c w total entry result
      | _ => .ok s
    | none => .ok s
  | .deliver c result => s.deliver c result
  | .entryRemoved c =>
    match s.phase c with
    | .waiting w total event _ => .ok (s.setPhase c (.waiting w total event false))
    | _ => .ok s

/-- The coroutine that runs is in no call on the sink. -/
def AtEase : Prop := ∀ c, s.sem.sched.currCoro = some c → s.phase c = .idle

/-- What coroutines may do outside the calls. -/
def Elsewhere : Semaphore.Event → Prop
  | .spawn _ | .cancel _ | .unpark _ => True
  | .shield _ | .park | .finish _ => s.AtEase
  | .resume _ | .acquire | .tryAcquire | .release => False

/-- The host reports no more than it was offered. -/
def Offered (w total : Nat) (result : StreamResult) : Prop :=
  total + result.progress ≤ (s.windows w).length

def Allowed (e : Event) : Prop :=
  s.panicked = none ∧
  match e with
  | .sched e => s.sem.allowed e ∧ s.Elsewhere e
  | .resume _ => s.sem.sched.currCoro = none
  | .begin op => s.AtEase ∧ ∃ c, s.sem.sched.currCoro = some c ∧
      (op = .final → c = s.bridge ∧ s.ended = false)
  | .offer reply => ∃ c w total, s.sem.sched.currCoro = some c ∧ s.phase c = .looping w total ∧
      ∀ result, reply = some result → s.Offered w total result
  | .cancelWrite result => ∃ c w total entry, s.sem.sched.currCoro = some c ∧
      s.phase c = .cancelling w total entry ∧ s.Offered w total result
  | .deliver c result => s.sem.sched.currCoro = none ∧ s.copying.isSome = true ∧
      ∃ w total entry, s.phase c = .waiting w total none entry ∧ s.Offered w total result
  | .entryRemoved c => ∃ w total event, s.phase c = .waiting w total event true

/-- No call of the bridge starts to wait while its coroutine has an entry in the
run queue, none is woken from elsewhere while it waits, and nobody else removes the
entry of its subscriber. -/
def Sound : Event → Prop
  | .begin op => ∀ c, s.sem.sched.currCoro = some c → s.sem.value = 0 →
      (op = .final ∨ (s.coro c).interrupted = false) → (s.coro c).ready = false
  | .offer none => ∀ c, s.sem.sched.currCoro = some c → (s.coro c).interrupted = false →
      (s.coro c).ready = false
  | .sched (.unpark c) => s.phase c = .idle
  | .entryRemoved _ => False
  | _ => True

/-- A panic is noted, and ends the run. -/
def execute (e : Event) : State :=
  match s.exec e with
  | .ok s' => s'
  | .error msg => { s with panicked := some msg }

/-- A bridge before anything happens. -/
def New (s : State) : Prop :=
  s.sem.New 1 1 ∧ s.phase = (fun _ => .idle) ∧ 0 < s.stagingWindow ∧ s.writerClosed = false ∧
    s.copying = none ∧ s.droppedWritable = 0 ∧ s.staged = 0 ∧ s.writes = [] ∧ s.ended = false ∧
    s.panicked = none

end State

/-- Every run of coroutines that write to and close one sink. -/
def bridge : System State Event String where
  init := State.New
  allowed := State.Allowed
  exec s e := .ok (s.execute e)

/-- The runs whose steps are all sound. -/
def soundBridge : System State Event String where
  init := State.New
  allowed s e := s.Allowed e ∧ s.Sound e
  exec s e := .ok (s.execute e)

/-! ## What the bridge is for -/

/-- Settled once, by the sum of the reported progress: the values below it are
committed, those from it on rejected. -/
structure Window.Settled (x : Window) : Prop where
  settled : x.settled = [x.reported.sum]
  le : x.reported.sum ≤ x.length
  committed : ∀ i, x.committed.count i = if i < x.reported.sum then 1 else 0
  rejected : ∀ i, x.rejected.count i = if x.reported.sum ≤ i ∧ i < x.length then 1 else 0
  freed : x.freed = 1

/-- Not settled yet. -/
structure Window.Pending (x : Window) : Prop where
  le : x.reported.sum ≤ x.length
  settled : x.settled = []
  committed : x.committed = []
  rejected : x.rejected = []
  freed : x.freed = 0

namespace State

variable (s : State)

/-- The call of a coroutine has staged a window, and is not over. -/
def Holds (c : CoroId) (w total : Nat) : Prop :=
  s.phase c = .looping w total ∨ (∃ event entry, s.phase c = .waiting w total event entry) ∨
    ∃ entry, s.phase c = .cancelling w total entry

structure Settled : Prop where
  calm : s.panicked = none
  /-- Windows are settled once, when their call is over. -/
  windows : ∀ w < s.staged, (∃ c total, s.Holds c w total) ∧ (s.windows w).Pending ∨
    (¬ ∃ c total, s.Holds c w total) ∧ (s.windows w).Settled
  /-- The values of a write are in its window, or were cleaned up. -/
  writes : ∀ x ∈ s.writes, (∃ w < s.staged, x.staged = some w ∧ (s.windows w).length = x.length) ∧
      x.cleaned = 0 ∨
    x.staged = none ∧ x.cleaned = x.length
  dropped : s.droppedWritable ≤ 1
  ended : s.ended = true → s.droppedWritable = 1

end State

end Outgoing

end Moonbit

end WitBindgen
